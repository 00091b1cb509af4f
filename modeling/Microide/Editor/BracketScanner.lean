/-
Bracket matching.

From an opener the matcher scans forward for its closer, from a closer backward for its opener:
one scan, over the positions in either order, with the two brackets changed about. They are bounded
alike in bytes but not in lines: forward the last line scanned is one short of the limit.

**Main results.** `matchForward_iff`, `matchBackward_iff`: each finds the bracket between which and
its own the brackets of the kind are balanced, within its lines; `bracketMatch_exact`.
-/

import Microide.Editor.EditTypes
import Microide.Lib.BracketWords

namespace Microide.Editor

open List Text Lib Or


/-- `BracketMatchPair`: the places of its four fields, and the end the caret is at. -/
structure BracketMatchPair where
  opener : TextPosition
  closer : TextPosition
  caretAtOpener : Bool
  deriving DecidableEq

def kMaxBracketMatchScanBytes : Nat := 512 * 1024

/-- `IsOpener`: one of `{ ( [`. -/
def isOpener (c : UInt8) : Bool := c = 0x7B || c = 0x28 || c = 0x5B

/-- `IsCloser`: one of `} ) ]`. -/
def isCloser (c : UInt8) : Bool := c = 0x7D || c = 0x29 || c = 0x5D

/-- `Opposite`. -/
def opposite (c : UInt8) : UInt8 :=
  if c = 0x7B then 0x7D else if c = 0x7D then 0x7B
  else if c = 0x28 then 0x29 else if c = 0x29 then 0x28
  else if c = 0x5B then 0x5D else if c = 0x5D then 0x5B
  else 0

section Scan

variable (lines : List Line) (suppressed : TextPosition → Bool)

def charAt (place : TextPosition) : UInt8 := (lines.getD place.line []).getD place.column 0

/-- The positions of a line from a column on. -/
def lineColumns (line first : Nat) : List TextPosition :=
  (List.range' first ((lines.getD line []).length - first)).map (⟨line, ·⟩)

/-- The loops of both matchers: `up` deepens, and the `down` that leaves no bracket open is found. -/
def scanBrackets (up down : UInt8) : Nat → Nat → List TextPosition → Option TextPosition
  | _, _, [] => none
  | budget, depth, place :: rest =>
    if budget = 0 then none
    else if suppressed place then scanBrackets up down (budget - 1) depth rest
    else if charAt lines place = up then scanBrackets up down (budget - 1) (depth + 1) rest
    else if charAt lines place = down then
      if depth - 1 = 0 then some place else scanBrackets up down (budget - 1) (depth - 1) rest
    else scanBrackets up down (budget - 1) depth rest

/-- The end of the lines `MatchForwardFromOpener` scans; the sum is one of 64 bits. -/
def forwardEnd (openLine maxLinesEachSide : Nat) : Nat :=
  min ((openLine + maxLinesEachSide) % 2 ^ 64) lines.length

def forwardPositions (opener : TextPosition) (endLine : Nat) : List TextPosition :=
  if opener.line < endLine then
    lineColumns lines opener.line (opener.column + 1) ++
      (List.range' (opener.line + 1) (endLine - (opener.line + 1))).flatMap (lineColumns lines · 0)
  else []

/-- `MatchForwardFromOpener`. -/
def matchForwardFromOpener (opener : TextPosition) (maxLinesEachSide : Nat) : Option TextPosition :=
  scanBrackets lines suppressed (charAt lines opener) (opposite (charAt lines opener))
    kMaxBracketMatchScanBytes 1
    (forwardPositions lines opener (forwardEnd lines opener.line maxLinesEachSide))

/-- The first line `MatchBackwardFromCloser` scans. -/
def backwardBottom (closeLine maxLinesEachSide : Nat) : Nat :=
  if maxLinesEachSide ≤ closeLine then closeLine - maxLinesEachSide else 0

/-- What is left of the closer, then the lines above, each right to left. -/
def backwardPositions (closer : TextPosition) (bottom : Nat) : List TextPosition :=
  ((List.range closer.column).map (⟨closer.line, ·⟩)).reverse ++
    (List.range' bottom (closer.line - bottom)).reverse.flatMap fun line =>
      (lineColumns lines line 0).reverse

/-- `MatchBackwardFromCloser`. -/
def matchBackwardFromCloser (closer : TextPosition) (maxLinesEachSide : Nat) : Option TextPosition :=
  scanBrackets lines suppressed (charAt lines closer) (opposite (charAt lines closer))
    kMaxBracketMatchScanBytes 1
    (backwardPositions lines closer (backwardBottom closer.line maxLinesEachSide))

/-- `try_at`. -/
def tryAt (maxLinesEachSide : Nat) (place : TextPosition) : Option BracketMatchPair :=
  if (lines.getD place.line []).length ≤ place.column then none
  else if suppressed place then none
  else if isOpener (charAt lines place) then
    (matchForwardFromOpener lines suppressed place maxLinesEachSide).map (⟨place, ·, true⟩)
  else if isCloser (charAt lines place) then
    (matchBackwardFromCloser lines suppressed place maxLinesEachSide).map (⟨·, place, false⟩)
  else none

/-- `FindBracketMatchInLines`: the bracket at the caret, else the one to its left. -/
def findBracketMatchInLines (caret : TextPosition) (maxLinesEachSide : Nat) :
    Option BracketMatchPair :=
  if lines.length ≤ caret.line then none
  else
    (if caret.column < (lines.getD caret.line []).length then
      tryAt lines suppressed maxLinesEachSide caret else none).or
    (if 0 < caret.column then
      tryAt lines suppressed maxLinesEachSide ⟨caret.line, caret.column - 1⟩ else none)

end Scan

/-! ### The scan -/

variable {place : TextPosition}

section Scan

variable {lines : List Line} {suppressed : TextPosition → Bool} {up down : UInt8}

/-- A bracket in the code proper. -/
def isBracket (lines : List Line) (suppressed : TextPosition → Bool) (c : UInt8)
    (place : TextPosition) : Bool := !suppressed place && charAt lines place = c

theorem exists_split_cons {rest : List TextPosition} {budget depth : Nat} {found : TextPosition} :
    (∃ word after, place :: rest = word ++ found :: after ∧
      isBracket lines suppressed down found = true ∧
      Closes (isBracket lines suppressed up) (isBracket lines suppressed down) depth word ∧
      word.length < budget + 1) ↔
    (place = found ∧ isBracket lines suppressed down found = true ∧ depth = 1) ∨
      ∃ word after, rest = word ++ found :: after ∧
        isBracket lines suppressed down found = true ∧
        Closes (isBracket lines suppressed up) (isBracket lines suppressed down) depth
          (place :: word) ∧
        word.length < budget := by
  constructor
  · rintro ⟨word, after, split, closer, closes, short⟩
    cases word with
    | nil =>
      obtain ⟨rfl, -⟩ := List.cons.inj split
      exact .inl ⟨rfl, closer, closes_nil_iff.mp closes⟩
    | cons first word =>
      obtain ⟨rfl, behind⟩ := List.cons.inj split
      exact .inr ⟨word, after, behind, closer, closes, Nat.lt_of_succ_lt_succ short⟩
  · rintro (⟨rfl, closer, rfl⟩ | ⟨word, after, rfl, closer, closes, short⟩)
    · exact ⟨[], rest, rfl, closer, closes_nil_iff.mpr rfl, Nat.succ_pos _⟩
    · exact ⟨place :: word, after, rfl, closer, closes, Nat.succ_lt_succ short⟩

/-- **The scan finds the letter that closes the ones open before it**, within its budget. -/
theorem scanBrackets_iff (apart : up ≠ down) {budget depth : Nat} (some_ : 0 < depth)
    {places : List TextPosition} {found : TextPosition} :
    scanBrackets lines suppressed up down budget depth places = some found ↔
      ∃ word after, places = word ++ found :: after ∧
        isBracket lines suppressed down found = true ∧
        Closes (isBracket lines suppressed up) (isBracket lines suppressed down) depth word ∧
        word.length < budget := by
  induction places generalizing budget depth with
  | nil =>
    constructor
    · exact fun none_ => absurd none_.symm (Option.some_ne_none found)
    · rintro ⟨word, after, split, -⟩
      exact absurd split.symm (append_ne_nil_of_right_ne_nil _ (cons_ne_nil _ _))
  | cons place rest ih =>
    rw [scanBrackets]
    cases budget with
    | zero =>
      constructor
      · exact fun none_ => absurd none_.symm (Option.some_ne_none found)
      · rintro ⟨word, after, -, -, -, short⟩
        exact absurd short (Nat.not_lt_zero _)
    | succ budget =>
      rw [exists_split_cons, if_neg (Nat.succ_ne_zero budget), Nat.add_sub_cancel]
      -- a place that is no closer is not the one found
      have other : isBracket lines suppressed down place = false →
          ¬(place = found ∧ isBracket lines suppressed down found = true ∧ depth = 1) := by
        rintro notDown ⟨rfl, closer, -⟩
        exact absurd closer (by rw [notDown]; exact Bool.false_ne_true)
      split
      next hidden =>
        have notUp : isBracket lines suppressed up place = false := by simp [isBracket, hidden]
        have notDown : isBracket lines suppressed down place = false := by simp [isBracket, hidden]
        rw [ih some_, or_iff_right (other notDown)]
        simp only [closes_other notUp notDown some_]
      next shown =>
        split
        next isUp =>
          have opens : isBracket lines suppressed up place = true := by simp [isBracket, shown, isUp]
          have notDown : isBracket lines suppressed down place = false := by
            simp [isBracket, isUp, apart]
          rw [ih (Nat.succ_pos depth), or_iff_right (other notDown)]
          simp only [closes_up opens notDown some_]
        next notUp_ =>
          have notUp : isBracket lines suppressed up place = false := by simp [isBracket, notUp_]
          split
          next isDown =>
            have closes : isBracket lines suppressed down place = true := by
              simp [isBracket, shown, isDown]
            obtain ⟨depth, rfl⟩ : ∃ less, depth = less + 1 := ⟨depth - 1, by omega⟩
            rw [Nat.add_sub_cancel]
            simp only [closes_down notUp closes]
            split
            next last =>
              subst last
              have shut : ∀ word, ¬Closes (isBracket lines suppressed up)
                  (isBracket lines suppressed down) 0 word := fun word closes =>
                absurd (closes.2 [] nil_prefix) (Nat.lt_irrefl 0)
              constructor
              · intro here
                obtain rfl := Option.some.inj here
                exact .inl ⟨rfl, closes, rfl⟩
              · rintro (⟨rfl, -⟩ | ⟨word, -, -, -, closes, -⟩)
                · rfl
                · exact absurd closes (shut word)
            next more =>
              rw [ih (Nat.pos_of_ne_zero more), or_iff_right]
              rintro ⟨-, -, one⟩
              omega
          next notDown_ =>
            have notDown : isBracket lines suppressed down place = false := by
              simp [isBracket, notDown_]
            rw [ih some_, or_iff_right (other notDown)]
            simp only [closes_other notUp notDown some_]

end Scan

/-! ### The positions -/

/-- The order of the positions. -/
def Precedes (a b : TextPosition) : Prop := a.line < b.line ∨ a.line = b.line ∧ a.column < b.column

instance irrefl_precedes : Std.Irrefl Precedes where
  irrefl a before := by
    rw [Precedes] at before
    omega

instance antisymm_precedes : Std.Antisymm Precedes where
  antisymm a b before behind := by
    rw [Precedes] at before behind
    omega

/-- The order of a scan to the left. -/
def Succeeds (a b : TextPosition) : Prop := Precedes b a

instance irrefl_succeeds : Std.Irrefl Succeeds where
  irrefl a := Std.Irrefl.irrefl (r := Precedes) a

instance antisymm_succeeds : Std.Antisymm Succeeds where
  antisymm a b behind before := Std.Antisymm.antisymm (r := Precedes) a b before behind

/-- A position of a byte of the text. -/
def InText (lines : List Line) (place : TextPosition) : Prop :=
  place.column < (lines.getD place.line []).length

instance decidableInText (lines : List Line) (place : TextPosition) :
    Decidable (InText lines place) := inferInstanceAs (Decidable (_ < _))

/-- The positions between two. -/
def between (lines : List Line) (first last : TextPosition) : List TextPosition :=
  ((List.range lines.length).flatMap (lineColumns lines · 0)).filter fun place =>
    positionBefore first place && positionBefore place last

section Positions

variable {lines : List Line}

theorem positionBefore_iff_precedes {a b : TextPosition} :
    positionBefore a b = true ↔ Precedes a b := by
  rw [positionBefore, Precedes, Bool.or_eq_true, Bool.and_eq_true, decide_eq_true_eq,
    decide_eq_true_eq, decide_eq_true_eq]

theorem InText.line_lt (inside : InText lines place) : place.line < lines.length := by
  by_contra below
  rw [InText, getD_eq_default _ _ (Nat.le_of_not_lt below)] at inside
  exact absurd inside (Nat.not_lt_zero _)

theorem mem_lineColumns {line first : Nat} : place ∈ lineColumns lines line first ↔
      place.line = line ∧ first ≤ place.column ∧ InText lines place := by
  rw [lineColumns, mem_map, InText]
  constructor
  · rintro ⟨column, mem, rfl⟩
    rw [mem_range'_1] at mem
    exact ⟨rfl, mem.1, by dsimp only; omega⟩
  · rintro ⟨rfl, from_, inside⟩
    exact ⟨place.column, mem_range'_1.mpr (by omega), rfl⟩

theorem lineColumns_pairwise (lines : List Line) (line first : Nat) :
    (lineColumns lines line first).Pairwise Precedes := by
  rw [lineColumns, pairwise_map]
  exact (pairwise_lt_range' _).imp fun less => inr ⟨rfl, less⟩

/-- Whole lines, one after the other. -/
theorem wholeLines_pairwise (lines : List Line) (first count : Nat) :
    ((List.range' first count).flatMap (lineColumns lines · 0)).Pairwise Precedes := by
  rw [pairwise_flatMap]
  refine ⟨fun line _ => lineColumns_pairwise lines line 0, ?_⟩
  refine (pairwise_lt_range' _).imp fun {above below} less => ?_
  intro a memAbove b memBelow
  have := (mem_lineColumns.mp memAbove).1
  have := (mem_lineColumns.mp memBelow).1
  exact inl (by omega)

theorem mem_wholeLines {first count : Nat} :
    place ∈ (List.range' first count).flatMap (lineColumns lines · 0) ↔
      first ≤ place.line ∧ place.line < first + count ∧ InText lines place := by
  rw [mem_flatMap]
  constructor
  · rintro ⟨line, mem, column⟩
    obtain ⟨rfl, -, inside⟩ := mem_lineColumns.mp column
    rw [mem_range'_1] at mem
    exact ⟨mem.1, mem.2, inside⟩
  · rintro ⟨from_, below, inside⟩
    exact ⟨place.line, mem_range'_1.mpr ⟨from_, below⟩,
      mem_lineColumns.mpr ⟨rfl, Nat.zero_le _, inside⟩⟩

theorem between_pairwise (lines : List Line) (first last : TextPosition) :
    (between lines first last).Pairwise Precedes := by
  rw [between, range_eq_range']
  exact (wholeLines_pairwise lines 0 _).filter _

theorem mem_between {first last : TextPosition} :
    place ∈ between lines first last ↔ InText lines place ∧ Precedes first place ∧ Precedes place last := by
  rw [between, mem_filter, range_eq_range', mem_wholeLines, Bool.and_eq_true,
    positionBefore_iff_precedes, positionBefore_iff_precedes]
  constructor
  · rintro ⟨⟨-, -, inside⟩, both⟩
    exact ⟨inside, both⟩
  · rintro ⟨inside, both⟩
    exact ⟨⟨Nat.zero_le _, by rw [Nat.zero_add]; exact inside.line_lt, inside⟩, both⟩

theorem forwardPositions_pairwise (lines : List Line) (opener : TextPosition) (endLine : Nat) :
    (forwardPositions lines opener endLine).Pairwise Precedes := by
  rw [forwardPositions]
  split
  · refine pairwise_append.mpr ⟨lineColumns_pairwise lines _ _,
      wholeLines_pairwise lines _ _, fun a own b below => ?_⟩
    have := (mem_lineColumns.mp own).1
    have := (mem_wholeLines.mp below).1
    exact inl (by omega)
  · exact List.Pairwise.nil

theorem mem_forwardPositions {opener : TextPosition} {endLine : Nat} :
    place ∈ forwardPositions lines opener endLine ↔
      InText lines place ∧ Precedes opener place ∧ place.line < endLine := by
  rw [forwardPositions, Precedes]
  split
  · rw [mem_append, mem_lineColumns, mem_wholeLines]
    constructor
    · rintro (⟨same, from_, inside⟩ | ⟨from_, below, inside⟩)
      · exact ⟨inside, by omega, by omega⟩
      · exact ⟨inside, by omega, by omega⟩
    · rintro ⟨inside, above | ⟨same, left⟩, within⟩
      · exact inr ⟨above, by omega, inside⟩
      · exact inl ⟨same.symm, left, inside⟩
  · constructor
    · exact fun mem => absurd mem not_mem_nil
    · rintro ⟨-, before, within⟩
      omega

/-- What the backward scan goes over, in the order of the text. -/
theorem backwardPositions_reverse (closer : TextPosition) (bottom : Nat) :
    (backwardPositions lines closer bottom).reverse =
      (List.range' bottom (closer.line - bottom)).flatMap (lineColumns lines · 0) ++
        (List.range closer.column).map (⟨closer.line, ·⟩) := by
  rw [backwardPositions, reverse_append, reverse_reverse, reverse_flatMap, reverse_reverse]
  congr 1
  exact flatMap_congr fun line _ => reverse_reverse _

theorem backwardPositions_pairwise (lines : List Line) (closer : TextPosition) (bottom : Nat) :
    (backwardPositions lines closer bottom).Pairwise Succeeds := by
  have ascending : (backwardPositions lines closer bottom).reverse.Pairwise Precedes := by
    rw [backwardPositions_reverse]
    refine pairwise_append.mpr ⟨wholeLines_pairwise lines _ _, ?_, fun a above b own => ?_⟩
    · rw [pairwise_map]
      exact pairwise_lt_range.imp fun less => inr ⟨rfl, less⟩
    · have := (mem_wholeLines.mp above).2.1
      obtain ⟨column, -, rfl⟩ := mem_map.mp own
      have := (mem_wholeLines.mp above).1
      exact inl (by dsimp only; omega)
  exact pairwise_reverse.mp ascending

theorem mem_backwardPositions {closer : TextPosition} {bottom : Nat} (valid : InText lines closer)
    (low : bottom ≤ closer.line) : place ∈ backwardPositions lines closer bottom ↔
      InText lines place ∧ Precedes place closer ∧ bottom ≤ place.line := by
  rw [← mem_reverse, backwardPositions_reverse, mem_append, mem_wholeLines, mem_map, Precedes]
  constructor
  · rintro (⟨from_, above, inside⟩ | ⟨column, left, rfl⟩)
    · exact ⟨inside, inl (by omega), from_⟩
    · rw [mem_range] at left
      exact ⟨Nat.lt_trans left valid, inr ⟨rfl, left⟩, low⟩
  · rintro ⟨inside, above | ⟨same, left⟩, from_⟩
    · exact inl ⟨from_, by omega, inside⟩
    · exact inr ⟨place.column, mem_range.mpr left, by rw [← same]⟩

end Positions

/-! ### The match -/

/-- The unsuppressed brackets of the opener's kind balance between two positions. -/
def BalancedBetween (lines : List Line) (suppressed : TextPosition → Bool) (opening : UInt8)
    (first last : TextPosition) : Prop :=
  Balanced (isBracket lines suppressed opening) (isBracket lines suppressed (opposite opening))
    (between lines first last)

/-- The bracket that closes the one at `opener`: the brackets of the kind between are balanced, and
a scan of the bytes between and of it stays within the budget. -/
structure BracketPair (lines : List Line) (suppressed : TextPosition → Bool)
    (opener closer : TextPosition) : Prop where
  inside : InText lines closer
  before : Precedes opener closer
  closes : isBracket lines suppressed (opposite (charAt lines opener)) closer = true
  balanced : BalancedBetween lines suppressed (charAt lines opener) opener closer
  short : (between lines opener closer).length < kMaxBracketMatchScanBytes

theorem opposite_spec {c : UInt8} (bracket : isOpener c = true ∨ isCloser c = true) :
    opposite (opposite c) = c ∧ c ≠ opposite c ∧
      (isOpener c = true → isOpener (opposite c) = false ∧ isCloser (opposite c) = true) ∧
      (isCloser c = true → isOpener c = false) := by
  unfold isOpener isCloser at bracket ⊢
  simp only [Bool.or_eq_true, decide_eq_true_eq] at bracket
  obtain ((rfl | rfl) | rfl) | ((rfl | rfl) | rfl) := bracket <;> decide

theorem isBracket_iff {lines : List Line} {suppressed : TextPosition → Bool} {c : UInt8} :
    isBracket lines suppressed c place = true ↔
      suppressed place = false ∧ charAt lines place = c := by
  rw [isBracket, Bool.and_eq_true, Bool.not_eq_true', decide_eq_true_eq]

variable {found : BracketMatchPair}

section Match

variable {lines : List Line} {suppressed : TextPosition → Bool} {maxLines : Nat}
  {opener closer : TextPosition}

/-- **Forward: the closer, on a line before the end of the scan.** -/
theorem matchForward_iff (opens : isOpener (charAt lines opener) = true) :
    matchForwardFromOpener lines suppressed opener maxLines = some closer ↔
      BracketPair lines suppressed opener closer ∧
        closer.line < forwardEnd lines opener.line maxLines := by
  obtain ⟨-, apart, -⟩ := opposite_spec (inl opens)
  rw [matchForwardFromOpener, scanBrackets_iff apart Nat.one_pos]
  simp only [closes_one_iff]
  refine (exists_split_iff (forwardPositions_pairwise lines _ _)
    (between_pairwise lines opener closer) ?_ _).trans ?_
  · intro here place
    have within := (mem_forwardPositions.mp here).2.2
    rw [mem_forwardPositions, mem_between, Precedes, Precedes]
    constructor
    · rintro ⟨inside, behind, before⟩
      exact ⟨⟨inside, behind, by omega⟩, before⟩
    · rintro ⟨⟨inside, behind, -⟩, before⟩
      exact ⟨inside, behind, before⟩
  · rw [mem_forwardPositions]
    constructor
    · rintro ⟨⟨inside, before, within⟩, closes, balanced, short⟩
      exact ⟨⟨inside, before, closes, balanced, short⟩, within⟩
    · rintro ⟨pair, within⟩
      exact ⟨⟨pair.inside, pair.before, within⟩, pair.closes, pair.balanced, pair.short⟩

theorem backwardBottom_le (closeLine maxLines : Nat) :
    backwardBottom closeLine maxLines ≤ closeLine := by
  rw [backwardBottom]
  split <;> omega

/-- **Backward: the opener, on a line from the bottom of the scan on.** -/
theorem matchBackward_iff (closes : isCloser (charAt lines closer) = true)
    (valid : InText lines closer) :
    matchBackwardFromCloser lines suppressed closer maxLines = some opener ↔
      (InText lines opener ∧ Precedes opener closer ∧
        isBracket lines suppressed (opposite (charAt lines closer)) opener = true ∧
        Balanced (isBracket lines suppressed (opposite (charAt lines closer)))
          (isBracket lines suppressed (charAt lines closer)) (between lines opener closer) ∧
        (between lines opener closer).length < kMaxBracketMatchScanBytes) ∧
      backwardBottom closer.line maxLines ≤ opener.line := by
  obtain ⟨-, apart, -⟩ := opposite_spec (inr closes)
  have low := backwardBottom_le closer.line maxLines
  rw [matchBackwardFromCloser, scanBrackets_iff apart Nat.one_pos]
  simp only [closes_one_iff]
  refine (exists_split_iff (backwardPositions_pairwise lines _ _)
    (pairwise_reverse.mpr (between_pairwise lines opener closer)) ?_ _).trans ?_
  · intro here place
    have within := ((mem_backwardPositions valid low).mp here).2.2
    rw [mem_reverse, mem_backwardPositions valid low, mem_between, Succeeds, Precedes, Precedes]
    constructor
    · rintro ⟨inside, behind, before⟩
      exact ⟨⟨inside, before, by omega⟩, behind⟩
    · rintro ⟨⟨inside, before, -⟩, behind⟩
      exact ⟨inside, behind, before⟩
  · rw [mem_backwardPositions valid low, balanced_reverse_iff, length_reverse]
    constructor
    · rintro ⟨⟨inside, before, within⟩, opens, balanced, short⟩
      exact ⟨⟨inside, before, opens, balanced, short⟩, within⟩
    · rintro ⟨⟨inside, before, opens, balanced, short⟩, within⟩
      exact ⟨⟨inside, before, within⟩, opens, balanced, short⟩

/-- With the caret at `caret` the pair is the one reported. -/
def ReportsPair (lines : List Line) (suppressed : TextPosition → Bool) (maxLines : Nat)
    (caret opener closer : TextPosition) : Prop :=
  ∃ found, findBracketMatchInLines lines suppressed caret maxLines = some found ∧
    found.opener = opener ∧ found.closer = closer

/-- The pair as the backward matcher sees it. -/
theorem bracketPair_iff_back (opens : isOpener (charAt lines opener) = true)
    (shown : suppressed opener = false) (valid : InText lines opener) :
    BracketPair lines suppressed opener closer ↔
      suppressed closer = false ∧ InText lines closer ∧ isCloser (charAt lines closer) = true ∧
      (InText lines opener ∧ Precedes opener closer ∧
        isBracket lines suppressed (opposite (charAt lines closer)) opener = true ∧
        Balanced (isBracket lines suppressed (opposite (charAt lines closer)))
          (isBracket lines suppressed (charAt lines closer)) (between lines opener closer) ∧
        (between lines opener closer).length < kMaxBracketMatchScanBytes) := by
  obtain ⟨turned, -, kind, -⟩ := opposite_spec (inl opens)
  constructor
  · rintro ⟨inside, before, closes, balanced, short⟩
    obtain ⟨shown', char⟩ := isBracket_iff.mp closes
    rw [char, turned]
    exact ⟨shown', inside, (kind opens).2, valid, before, isBracket_iff.mpr ⟨shown, rfl⟩, balanced,
      short⟩
  · rintro ⟨shown', inside, closes, -, before, opens', balanced, short⟩
    have char := (isBracket_iff.mp opens').2
    have turned' := (opposite_spec (inr closes)).1
    rw [← char] at balanced
    rw [← char] at turned'
    refine ⟨inside, before, isBracket_iff.mpr ⟨shown', turned'.symm⟩, ?_, short⟩
    rw [BalancedBetween, turned']
    exact balanced

/-- What `try_at` finds has its place at one end. -/
theorem tryAt_eq_some (tried : tryAt lines suppressed maxLines place = some found) :
    InText lines place ∧ suppressed place = false ∧
      ((isOpener (charAt lines place) = true ∧ found.opener = place ∧
        matchForwardFromOpener lines suppressed place maxLines = some found.closer) ∨
      (isCloser (charAt lines place) = true ∧ found.closer = place ∧
        matchBackwardFromCloser lines suppressed place maxLines = some found.opener)) := by
  rw [tryAt] at tried
  split at tried
  · exact absurd tried.symm (Option.some_ne_none found)
  next inside =>
    split at tried
    · exact absurd tried.symm (Option.some_ne_none found)
    next shown =>
      refine ⟨Nat.lt_of_not_le inside, Bool.eq_false_of_not_eq_true shown, ?_⟩
      split at tried
      next opens =>
        obtain ⟨closer, matched, rfl⟩ := Option.map_eq_some_iff.mp tried
        exact .inl ⟨opens, rfl, matched⟩
      · split at tried
        next closes =>
          obtain ⟨opener, matched, rfl⟩ := Option.map_eq_some_iff.mp tried
          exact .inr ⟨closes, rfl, matched⟩
        · exact absurd tried.symm (Option.some_ne_none found)

/-- The bracket at the caret or, where that finds nothing, the one to its left. -/
theorem findBracketMatch_cases {caret : TextPosition}
    (matched : findBracketMatchInLines lines suppressed caret maxLines = some found) :
    tryAt lines suppressed maxLines caret = some found ∨
      (¬∃ other, InText lines caret ∧ tryAt lines suppressed maxLines caret = some other) ∧
        ∃ left, left.line = caret.line ∧ left.column < caret.column ∧
          tryAt lines suppressed maxLines left = some found := by
  rw [findBracketMatchInLines] at matched
  split at matched
  · exact absurd matched.symm (Option.some_ne_none found)
  · rw [Option.or_eq_some_iff] at matched
    rcases matched with here | ⟨none_, left⟩
    · split at here
      · exact .inl here
      · exact absurd here.symm (Option.some_ne_none found)
    · refine .inr ⟨?_, ?_⟩
      · rintro ⟨other, inside, here⟩
        rw [if_pos (show caret.column < (lines.getD caret.line []).length from inside), here] at none_
        exact absurd none_ (Option.some_ne_none other)
      · split at left
        next behind =>
          exact ⟨⟨caret.line, caret.column - 1⟩, rfl, Nat.sub_lt behind Nat.one_pos, left⟩
        · exact absurd left.symm (Option.some_ne_none found)

theorem findBracketMatch_here {caret : TextPosition}
    (tried : tryAt lines suppressed maxLines caret = some found) :
    findBracketMatchInLines lines suppressed caret maxLines = some found := by
  have inside := (tryAt_eq_some tried).1
  rw [findBracketMatchInLines, if_neg (Nat.not_le_of_lt inside.line_lt),
    if_pos (show caret.column < (lines.getD caret.line []).length from inside), tried,
    Option.some_or]

section Opener

variable (valid : InText lines opener) (shown : suppressed opener = false)
  (opens : isOpener (charAt lines opener) = true)
include valid shown opens

/-- With the caret on an opener. -/
theorem reports_opener_iff : ReportsPair lines suppressed maxLines opener opener closer ↔
      BracketPair lines suppressed opener closer ∧
        closer.line < forwardEnd lines opener.line maxLines := by
  have notCloser : isCloser (charAt lines opener) = true → False := by
    intro closes
    rw [(opposite_spec (inr closes)).2.2.2 closes] at opens
    exact Bool.false_ne_true opens
  rw [← matchForward_iff opens]
  constructor
  · rintro ⟨found, matched, same, same'⟩
    rcases findBracketMatch_cases matched with here | ⟨-, left, line, column, there⟩
    · obtain ⟨-, -, ⟨-, -, forward⟩ | ⟨closes, -⟩⟩ := tryAt_eq_some here
      · rw [forward, same']
      · exact (notCloser closes).elim
    · obtain ⟨inside, -, ⟨-, own, -⟩ | ⟨closes, own, backward⟩⟩ := tryAt_eq_some there
      · rw [same] at own
        rw [own] at column
        exact absurd column (Nat.lt_irrefl _)
      · obtain ⟨⟨-, before, -⟩, -⟩ := (matchBackward_iff closes inside).mp backward
        rw [same, Precedes] at before
        omega
  · intro forward
    refine ⟨⟨opener, closer, true⟩, findBracketMatch_here ?_, rfl, rfl⟩
    rw [tryAt, if_neg (Nat.not_le_of_lt valid), if_neg (by rw [shown]; exact Bool.false_ne_true),
      if_pos opens, forward, Option.map_some]

/-- With the caret on a closer. -/
theorem reports_closer_iff : ReportsPair lines suppressed maxLines closer opener closer ↔
      BracketPair lines suppressed opener closer ∧
        backwardBottom closer.line maxLines ≤ opener.line := by
  have back : ∀ {opener_ : TextPosition}, isCloser (charAt lines closer) = true →
      suppressed closer = false → InText lines closer →
      matchBackwardFromCloser lines suppressed closer maxLines = some opener_ →
      tryAt lines suppressed maxLines closer = some ⟨opener_, closer, false⟩ := by
    intro opener_ closes shown' inside backward
    rw [tryAt, if_neg (Nat.not_le_of_lt inside), if_neg (by rw [shown']; exact Bool.false_ne_true),
      if_neg (by rw [(opposite_spec (inr closes)).2.2.2 closes]; exact Bool.false_ne_true),
      if_pos closes, backward, Option.map_some]
  constructor
  · rintro ⟨found, matched, same, same'⟩
    rcases findBracketMatch_cases matched with here | ⟨none_, left, line, column, there⟩
    · obtain ⟨inside, shown', ⟨opens', own, forward⟩ | ⟨closes, -, backward⟩⟩ :=
        tryAt_eq_some here
      · have before := ((matchForward_iff opens').mp forward).1.before
        rw [same', Precedes] at before
        omega
      · rw [same, matchBackward_iff closes inside] at backward
        exact ⟨(bracketPair_iff_back opens shown valid).mpr ⟨shown', inside, closes, backward.1⟩,
          backward.2⟩
    · obtain ⟨inside, -, ⟨opens', own, forward⟩ | ⟨-, own, -⟩⟩ := tryAt_eq_some there
      · rw [← own, same, same', matchForward_iff opens] at forward
        rw [← own, same] at line
        -- the pair lies on one line, where the backward search finds it
        have pair := (bracketPair_iff_back opens shown valid).mp forward.1
        have low := backwardBottom_le closer.line maxLines
        have backward := (matchBackward_iff pair.2.2.1 pair.2.1).mpr ⟨pair.2.2.2, low.trans line.ge⟩
        exact (none_ ⟨_, pair.2.1, back pair.2.2.1 pair.1 pair.2.1 backward⟩).elim
      · rw [same'] at own
        rw [own] at column
        exact absurd column (Nat.lt_irrefl _)
  · rintro ⟨pair, within⟩
    obtain ⟨shown', inside, closes, backward⟩ := (bracketPair_iff_back opens shown valid).mp pair
    have found := (matchBackward_iff closes inside).mpr ⟨backward, within⟩
    exact ⟨_, findBracketMatch_here (back closes shown' inside found), rfl, rfl⟩

end Opener

/-- A closer nearer than the one of a pair does not balance, nor does a nearer opener. -/
theorem BracketPair.nearest (pair : BracketPair lines suppressed opener closer)
    (opens : isOpener (charAt lines opener) = true) (mem : place ∈ between lines opener closer) :
    (isBracket lines suppressed (opposite (charAt lines opener)) place = true →
      ¬BalancedBetween lines suppressed (charAt lines opener) opener place) ∧
    (isBracket lines suppressed (charAt lines opener) place = true →
      ¬BalancedBetween lines suppressed (charAt lines opener) place closer) := by
  obtain ⟨total, fronts⟩ := pair.balanced
  obtain ⟨-, apart, -⟩ := opposite_spec (inl opens)
  have ordered := between_pairwise lines opener closer
  obtain ⟨inside, behind, before⟩ := mem_between.mp mem
  obtain ⟨front, back, split⟩ := append_of_mem mem
  have front_eq : front = between lines opener place := by
    refine (pairwise_append.mp (split ▸ ordered)).1.eq_of_mem_iff
      (between_pairwise lines opener place) fun other => ?_
    rw [mem_word_iff ordered split, mem_between, mem_between, Precedes, Precedes, Precedes]
    rw [Precedes] at before
    constructor
    · rintro ⟨⟨inside, from_, -⟩, less⟩
      exact ⟨inside, from_, less⟩
    · rintro ⟨inside, from_, less⟩
      exact ⟨⟨inside, from_, by omega⟩, less⟩
  have back_eq : back = between lines place closer := by
    have turned : (between lines opener closer).reverse = back.reverse ++ place :: front.reverse := by
      rw [split, reverse_append, reverse_cons, append_assoc, singleton_append]
    have ordered' : (between lines opener closer).reverse.Pairwise Succeeds :=
      pairwise_reverse.mpr ordered
    refine (pairwise_append.mp (split ▸ ordered)).2.1.of_cons.eq_of_mem_iff
      (between_pairwise lines place closer) fun other => ?_
    rw [← mem_reverse, mem_word_iff ordered' turned, mem_reverse, mem_between, mem_between,
      Succeeds, Precedes, Precedes, Precedes]
    rw [Precedes] at behind
    constructor
    · rintro ⟨⟨inside, -, less⟩, from_⟩
      exact ⟨inside, from_, less⟩
    · rintro ⟨inside, from_, less⟩
      exact ⟨⟨inside, by omega, less⟩, from_⟩
  rw [BalancedBetween, BalancedBetween, ← front_eq, ← back_eq]
  have early := fronts (front ++ [place]) ⟨back, by rw [split, append_assoc]; rfl⟩
  have whole := fronts front ⟨place :: back, split.symm⟩
  rw [split] at total
  simp only [countP_append, countP_cons, countP_nil] at early total
  constructor
  · rintro isDown ⟨same, -⟩
    have notUp : isBracket lines suppressed (charAt lines opener) place = false := by
      rw [← Bool.not_eq_true, isBracket_iff]
      rintro ⟨-, char⟩
      exact apart (char.symm.trans (isBracket_iff.mp isDown).2)
    rw [isDown, notUp] at early
    simp only [if_true, Bool.false_eq_true, if_false] at early
    omega
  · rintro isUp ⟨same, -⟩
    have notDown : isBracket lines suppressed (opposite (charAt lines opener)) place = false := by
      rw [← Bool.not_eq_true, isBracket_iff]
      rintro ⟨-, char⟩
      exact apart ((isBracket_iff.mp isUp).2.symm.trans char)
    rw [isUp, notDown] at total
    simp only [if_true, Bool.false_eq_true, if_false] at total
    omega

/-- **When bracket matching is symmetric.** For an opener in the code proper and any place, the pair
is reported from one exactly when it is from the other, but for the closing bracket that lies within
the limit's lines, and not before the line that the sum of the opener's line and the limit names:
as many lines below as the limit, where the sum does not overflow. What is reported from either end
is the nearest pair between which the brackets of the kind are balanced. -/
theorem bracketMatch_exact (lines : List Line) (suppressed : TextPosition → Bool) (maxLines : Nat)
    (opener closer : TextPosition)
    (opens : InText lines opener ∧ suppressed opener = false ∧
      isOpener (charAt lines opener) = true) :
    ((ReportsPair lines suppressed maxLines opener opener closer ↔
        ReportsPair lines suppressed maxLines closer opener closer) ↔
      ¬(BracketPair lines suppressed opener closer ∧ closer.line ≤ opener.line + maxLines ∧
        (opener.line + maxLines) % 2 ^ 64 ≤ closer.line)) ∧
    (ReportsPair lines suppressed maxLines opener opener closer ∨
        ReportsPair lines suppressed maxLines closer opener closer →
      BracketPair lines suppressed opener closer ∧
      ∀ place ∈ between lines opener closer,
        (isBracket lines suppressed (opposite (charAt lines opener)) place = true →
          ¬BalancedBetween lines suppressed (charAt lines opener) opener place) ∧
        (isBracket lines suppressed (charAt lines opener) place = true →
          ¬BalancedBetween lines suppressed (charAt lines opener) place closer)) := by
  obtain ⟨valid, shown, kind⟩ := opens
  have forward := @reports_opener_iff lines suppressed maxLines opener closer valid shown kind
  have backward := @reports_closer_iff lines suppressed maxLines opener closer valid shown kind
  have bottom : backwardBottom closer.line maxLines ≤ opener.line ↔
      closer.line ≤ opener.line + maxLines := by
    rw [backwardBottom]
    split <;> omega
  constructor
  · rw [forward, backward, bottom, forwardEnd]
    by_cases pair : BracketPair lines suppressed opener closer
    · have line := pair.inside.line_lt
      have wrapped := Nat.mod_le (opener.line + maxLines) (2 ^ 64)
      simp only [pair, true_and]
      omega
    · simp only [pair, false_and, not_false_eq_true]
  · intro reported
    have pair : BracketPair lines suppressed opener closer :=
      reported.elim (fun fore => (forward.mp fore).1) fun back => (backward.mp back).1
    exact ⟨pair, fun place mem => pair.nearest kind mem⟩

/-- A pair whose closer is a line below, with a limit of two lines. -/
theorem bracketMatch_two_lines :
    ReportsPair [[0x28], [0x29]] (fun _ => false) 2 ⟨0, 0⟩ ⟨0, 0⟩ ⟨1, 0⟩ ↔
      ReportsPair [[0x28], [0x29]] (fun _ => false) 2 ⟨1, 0⟩ ⟨0, 0⟩ ⟨1, 0⟩ :=
  (bracketMatch_exact [[0x28], [0x29]] (fun _ => false) 2 ⟨0, 0⟩ ⟨1, 0⟩
    ⟨by decide, rfl, by decide⟩).1.mpr fun bad => absurd bad.2.2 (by decide)

/-- With a limit of one line the same pair is found from its closer alone. -/
theorem bracketMatch_edge :
    ¬∀ (lines : List Line) (suppressed : TextPosition → Bool) (maxLines : Nat)
      (opener closer : TextPosition), InText lines opener → suppressed opener = false →
      isOpener (charAt lines opener) = true →
      (ReportsPair lines suppressed maxLines opener opener closer ↔
        ReportsPair lines suppressed maxLines closer opener closer) := by
  intro all
  have same := all [[0x28], [0x29]] (fun _ => false) 1 ⟨0, 0⟩ ⟨1, 0⟩ (by decide) rfl (by decide)
  obtain ⟨found, matched, -⟩ := same.mpr ⟨⟨⟨0, 0⟩, ⟨1, 0⟩, false⟩, by decide, rfl, rfl⟩
  have none_ : findBracketMatchInLines [[0x28], [0x29]] (fun _ => false) ⟨0, 0⟩ 1 = none := by decide
  exact absurd (matched.symm.trans none_) (Option.some_ne_none found)

end Match

end Microide.Editor
