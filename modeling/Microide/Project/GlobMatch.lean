/-
Glob patterns.

A pattern and a path are bytes. `*` and `?` stop at `/`; a run of two stars or more crosses it, in one
convention where it is a whole segment, in the other wherever it stands. The matcher walks both once
and keeps two places to go back to. `char` is signed, as bracket ranges compare it.
-/

import Mathlib.Data.List.Basic
import Mathlib.Data.List.TakeWhile

namespace Microide.Project

/-- The bytes of a glob. -/
abbrev GlobText := List UInt8

namespace Glob

def slash : UInt8 := 0x2F
def asterisk : UInt8 := 0x2A
def questionMark : UInt8 := 0x3F
def openBracket : UInt8 := 0x5B
def closeBracket : UInt8 := 0x5D
def backslash : UInt8 := 0x5C
def exclamation : UInt8 := 0x21
def caret : UInt8 := 0x5E
def dash : UInt8 := 0x2D

end Glob

open Glob

inductive GlobDoubleStar where
  | segmentAnchored
  | always
  deriving DecidableEq

/-! ### Pieces of a pattern -/

/-- A byte that may be escaped, and how many it takes. A backslash at the end stands for itself. -/
def readByte : GlobText → UInt8 × Nat
  | [] => (0, 1)
  | [c] => (c, 1)
  | c :: next :: _ => if c = backslash then (next, 2) else (c, 1)

theorem readByte_pos (text : GlobText) : 0 < (readByte text).2 := by
  rw [readByte.eq_def]
  split
  · exact Nat.one_pos
  · exact Nat.one_pos
  · split
    · exact Nat.two_pos
    · exact Nat.one_pos

/-- The ranges of a bracket class from its first item on, and the bytes through its `]`. Where the
first item is a `]`, it is an item. -/
def classItems (first : Bool) (text : GlobText) : Option (List (UInt8 × UInt8) × Nat) :=
  match text with
  | [] => none
  | c :: rest =>
    if c = closeBracket ∧ first = false then some ([], 1)
    else
      let low := readByte (c :: rest)
      let after := (c :: rest).drop low.2
      if after[0]? = some dash ∧ 1 < after.length ∧ after[1]? ≠ some closeBracket then
        let high := readByte (after.drop 1)
        (classItems false (after.drop (1 + high.2))).map fun items =>
          ((low.1, high.1) :: items.1, low.2 + 1 + high.2 + items.2)
      else
        (classItems false after).map fun items => ((low.1, low.1) :: items.1, low.2 + items.2)
termination_by text.length
decreasing_by
  · have := readByte_pos (c :: rest)
    simp only [List.length_drop, List.length_cons]
    omega
  · have := readByte_pos (c :: rest)
    simp only [List.length_drop, List.length_cons]
    omega

structure BracketClass where
  negate : Bool
  ranges : List (UInt8 × UInt8)
  /-- The bytes from `[` through `]`. -/
  size : Nat

/-- The class that the `[` at the head of the text opens; none where no `]` closes it. -/
def bracketClass (text : GlobText) : Option BracketClass :=
  let negate : Bool := text[1]? = some exclamation ∨ text[1]? = some caret
  let head := if negate then 2 else 1
  (classItems true (text.drop head)).map fun items => ⟨negate, items.1, head + items.2⟩

/-- `char` comparison. -/
def charLe (a b : UInt8) : Bool := a.toInt8 ≤ b.toInt8

def BracketClass.accepts (bracket : BracketClass) (c : UInt8) : Bool :=
  (bracket.ranges.any fun range => charLe range.1 c && charLe c range.2) != bracket.negate

/-- The number of stars the text starts with. -/
def starCount (text : GlobText) : Nat := (text.takeWhile (· = asterisk)).length

/-! ### The matcher -/

/-- `star_pi`, `star_ti`, `star_cross_slash`, `star_folded_slash`. -/
structure StarRestart where
  patternAt : Nat
  textAt : Nat
  crossSlash : Bool
  foldedSlash : Bool

/-- `dstar_pi`, `dstar_ti`, `dstar_folded_slash`. -/
structure DoubleStarRestart where
  patternAt : Nat
  textAt : Nat
  foldedSlash : Bool

structure GlobState where
  patternAt : Nat := 0
  textAt : Nat := 0
  star : Option StarRestart := none
  doubleStar : Option DoubleStarRestart := none

def extendSegmentDoubleStar (text : GlobText) (consumedEnd : Nat) (foldedSlash : Bool) : Option Nat :=
  if foldedSlash = false then
    if text.length ≤ consumedEnd then none else some (consumedEnd + 1)
  else ((text.drop consumedEnd).findIdx? (· = slash)).map fun separator => consumedEnd + separator + 1

def StarRestart.extended (text : GlobText) (star : StarRestart) : Option StarRestart :=
  if star.crossSlash then
    (extendSegmentDoubleStar text star.textAt star.foldedSlash).map fun next =>
      { star with textAt := next }
  else if text.length ≤ star.textAt ∨ text[star.textAt]? = some slash then none
  else some { star with textAt := star.textAt + 1 }

def DoubleStarRestart.extended (text : GlobText) (star : DoubleStarRestart) :
    Option DoubleStarRestart :=
  (extendSegmentDoubleStar text star.textAt star.foldedSlash).map fun next =>
    { star with textAt := next }

section Matcher

variable (mode : GlobDoubleStar) (pattern text : GlobText)

/-- The run of stars at a place begins a segment. -/
def beforeOk (at_ : Nat) : Bool := at_ = 0 ∨ pattern[at_ - 1]? = some slash

/-- The end of a round whose byte does not match: the last star takes in more, or else the last double
star, which drops the star behind it. -/
def backtrack (s : GlobState) : GlobState ⊕ Bool :=
  match s.star.bind (StarRestart.extended text) with
  | some star =>
    .inl { s with patternAt := star.patternAt, textAt := star.textAt, star := some star }
  | none =>
    match s.doubleStar.bind (DoubleStarRestart.extended text) with
    | some star =>
      .inl { patternAt := star.patternAt, textAt := star.textAt, star := none, doubleStar := some star }
    | none => .inr false

/-- The run of stars at the head of the pattern left. -/
def beginStar (s : GlobState) : GlobState ⊕ Bool :=
  let count := starCount (pattern.drop s.patternAt)
  let behind := s.patternAt + count
  let afterOk : Bool := behind = pattern.length ∨ pattern[behind]? = some slash
  let segmentDoubleStar : Bool :=
    2 ≤ count ∧ (mode = .always ∨ beforeOk pattern s.patternAt = true ∧ afterOk = true)
  if segmentDoubleStar = true ∧ behind = pattern.length then .inr true
  else
    let foldedSlash : Bool := segmentDoubleStar = true ∧ pattern[behind]? = some slash
    let resume := if foldedSlash then behind + 1 else behind
    .inl { s with
      patternAt := resume
      star := some ⟨resume, s.textAt, segmentDoubleStar, foldedSlash⟩
      doubleStar :=
        if segmentDoubleStar then some ⟨resume, s.textAt, foldedSlash⟩ else s.doubleStar }

/-- The loop once the text is exhausted. -/
def matchesNothing (at_ : Nat) : Bool :=
  if pattern[at_]? = some asterisk then
    let count := starCount (pattern.drop at_)
    let behind := at_ + count
    if 2 ≤ count ∧ pattern[behind]? = some slash ∧ (mode = .always ∨ beforeOk pattern at_ = true) then
      matchesNothing (behind + 1)
    else matchesNothing behind
  else at_ = pattern.length
termination_by pattern.length - at_
decreasing_by
  all_goals
    rename_i isStar _
    have inside := (List.getElem?_eq_some_iff.mp isStar).1
    have positive : 0 < starCount (pattern.drop at_) := by
      rw [starCount, List.drop_eq_getElem_cons inside, (List.getElem?_eq_some_iff.mp isStar).2]
      simp
    omega

/-- One round of the loop over the text. -/
def globStep (s : GlobState) : GlobState ⊕ Bool :=
  let advance (size : Nat) : GlobState ⊕ Bool :=
    .inl { s with patternAt := s.patternAt + size, textAt := s.textAt + 1 }
  match text[s.textAt]? with
  | none => .inr (matchesNothing mode pattern s.patternAt)
  | some tc =>
    match pattern[s.patternAt]? with
    | none => backtrack text s
    | some pc =>
      if pc = asterisk then beginStar mode pattern s
      else if pc = questionMark then if tc = slash then backtrack text s else advance 1
      else if pc = openBracket then
        if tc = slash then backtrack text s
        else
          match bracketClass (pattern.drop s.patternAt) with
          | some bracket => if bracket.accepts tc then advance bracket.size else backtrack text s
          | none => if tc = openBracket then advance 1 else backtrack text s
      else
        let lit := readByte (pattern.drop s.patternAt)
        if tc = lit.1 then advance lit.2 else backtrack text s

def globRun : Nat → GlobState → Option Bool
  | 0, _ => none
  | rounds + 1, s =>
    match globStep mode pattern text s with
    | .inl next => globRun rounds next
    | .inr answer => some answer

/-- Rounds that are enough. -/
def globRounds : Nat :=
  let width := pattern.length + 2
  let height := text.length + 1
  (((width * height * width) * height) * width)

/-- `GlobMatches`. -/
def globMatches : Bool := (globRun mode pattern text (globRounds pattern text) {}).getD false

end Matcher

end Microide.Project
