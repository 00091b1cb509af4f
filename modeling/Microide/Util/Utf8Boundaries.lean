/-
Code point boundaries.

A text is cut into code points by a walk from its start. A step forward takes the sequence at the
place; a step back goes over continuation bytes, so that it passes a malformed run of them in one
step where the walk takes a step for each.

**Main results.** `exists_utf8ByteOffset_step`, `backOver_eq`: what lies between two boundaries is
continuation bytes, and a step back ends at the last byte that is none; `previous_next_iff`,
`next_previous_iff`; `replaceInvalid_parts`: replacing works code point by code point.
-/

import Microide.Util.Utf8

namespace Microide.Util

open List Text Editor

/-! ### The walk -/

/-- `util::Utf8ByteOffsetForCodepointCount`: the offset after so many rounds of its loop. -/
def utf8ByteOffsetForCodepointCount (text : Line) : Nat → Nat
  | 0 => 0
  | count + 1 =>
    let offset := utf8ByteOffsetForCodepointCount text count
    if offset < text.length then offset + utf8SequenceLength (text.drop offset) else offset

/-- A place where the walk from the start steps. -/
def IsBoundary (text : Line) (place : Nat) : Prop :=
  ∃ count, utf8ByteOffsetForCodepointCount text count = place

/-- `util::NextUtf8Boundary`. -/
def nextUtf8Boundary (text : Line) (offset : Nat) : Nat :=
  let offset := min offset text.length
  if text.length ≤ offset then text.length
  else min text.length (offset + utf8SequenceLength (text.drop offset))

def isContinuationAt (text : Line) (place : Nat) : Bool :=
  isUtf8ContinuationByte (text.getD place 0)

/-- The loop of `util::PreviousUtf8Boundary`. -/
def backOver (text : Line) : Nat → Nat
  | 0 => 0
  | previous + 1 =>
    if isContinuationAt text (previous + 1) then backOver text previous else previous + 1

/-- `util::PreviousUtf8Boundary`. -/
def previousUtf8Boundary (text : Line) (offset : Nat) : Nat :=
  let offset := min offset text.length
  if offset = 0 then 0 else backOver text (offset - 1)

section Walk

variable {text : Line}

theorem utf8SequenceLength_drop {place : Nat} (inside : place < text.length) :
    1 ≤ utf8SequenceLength (text.drop place) ∧
      place + utf8SequenceLength (text.drop place) ≤ text.length := by
  obtain ⟨lead, rest, at_⟩ := exists_cons_of_ne_nil
    (ne_nil_of_length_pos (by rw [length_drop]; omega : 0 < (text.drop place).length))
  have size := congrArg List.length at_
  rw [length_drop, length_cons] at size
  rw [at_]
  have bounds := utf8SequenceLength_bounds lead rest
  omega

theorem utf8ByteOffset_succ {count : Nat}
    (inside : utf8ByteOffsetForCodepointCount text count < text.length) :
    utf8ByteOffsetForCodepointCount text (count + 1) =
      utf8ByteOffsetForCodepointCount text count +
        utf8SequenceLength (text.drop (utf8ByteOffsetForCodepointCount text count)) := by
  exact if_pos inside

theorem utf8ByteOffset_le (text : Line) (count : Nat) :
    utf8ByteOffsetForCodepointCount text count ≤ text.length := by
  induction count with
  | zero => exact Nat.zero_le _
  | succ count ih =>
    rw [utf8ByteOffsetForCodepointCount]
    split
    · exact (utf8SequenceLength_drop ‹_›).2
    · exact ih

theorem utf8ByteOffset_mono (text : Line) : Monotone (utf8ByteOffsetForCodepointCount text) := by
  refine monotone_nat_of_le_succ fun count => ?_
  rw [utf8ByteOffsetForCodepointCount]
  split
  · exact Nat.le_add_right _ _
  · exact le_rfl

/-- Every round takes a byte until the text is over. -/
theorem min_le_utf8ByteOffset (text : Line) (count : Nat) :
    min count text.length ≤ utf8ByteOffsetForCodepointCount text count := by
  induction count with
  | zero => exact (min_le_left _ _).trans (Nat.zero_le _)
  | succ count ih =>
    rw [utf8ByteOffsetForCodepointCount]
    split
    · have := utf8SequenceLength_drop ‹_›
      omega
    · omega

theorem utf8ByteOffset_length (text : Line) :
    utf8ByteOffsetForCodepointCount text text.length = text.length := by
  have reached := min_le_utf8ByteOffset text text.length
  rw [min_self] at reached
  exact le_antisymm (utf8ByteOffset_le text _) reached

theorem isBoundary_length (text : Line) : IsBoundary text text.length :=
  ⟨_, utf8ByteOffset_length text⟩

theorem isBoundary_zero (text : Line) : IsBoundary text 0 := ⟨0, rfl⟩

theorem IsBoundary.le_length {place : Nat} (boundary : IsBoundary text place) :
    place ≤ text.length := by
  obtain ⟨count, rfl⟩ := boundary
  exact utf8ByteOffset_le text count

/-- The walk's step, and the step forward. -/
theorem nextUtf8Boundary_walk (text : Line) (count : Nat) :
    nextUtf8Boundary text (utf8ByteOffsetForCodepointCount text count) =
      utf8ByteOffsetForCodepointCount text (count + 1) := by
  have within := utf8ByteOffset_le text count
  rw [nextUtf8Boundary, min_eq_left within, utf8ByteOffsetForCodepointCount]
  split
  · rw [if_neg (by omega)]
    exact le_antisymm (by omega) within
  next inside =>
    rw [if_pos (by omega)]
    exact min_eq_right (utf8SequenceLength_drop (by omega)).2

theorem IsBoundary.next {place : Nat} (boundary : IsBoundary text place) :
    IsBoundary text (nextUtf8Boundary text place) := by
  obtain ⟨count, rfl⟩ := boundary
  exact ⟨count + 1, (nextUtf8Boundary_walk text count).symm⟩

theorem nextUtf8Boundary_eq {place : Nat} (inside : place < text.length) :
    nextUtf8Boundary text place = place + utf8SequenceLength (text.drop place) := by
  rw [nextUtf8Boundary, min_eq_left inside.le, if_neg (Nat.not_le_of_lt inside)]
  exact min_eq_right (utf8SequenceLength_drop inside).2

theorem lt_nextUtf8Boundary {place : Nat} (inside : place < text.length) :
    place < nextUtf8Boundary text place := by
  rw [nextUtf8Boundary_eq inside]
  have := utf8SequenceLength_drop inside
  omega

/-- No boundary lies inside a code point. -/
theorem IsBoundary.next_le {place other : Nat} (boundary : IsBoundary text place)
    (boundary' : IsBoundary text other) (before : place < other) :
    nextUtf8Boundary text place ≤ other := by
  obtain ⟨count, rfl⟩ := boundary
  obtain ⟨more, rfl⟩ := boundary'
  rw [nextUtf8Boundary_walk]
  refine utf8ByteOffset_mono text ?_
  by_contra fewer
  exact absurd (utf8ByteOffset_mono text (Nat.lt_succ_iff.mp (Nat.not_le.mp fewer)))
    (Nat.not_le_of_lt before)

/-- A boundary behind the start is where a step forward from another leads. -/
theorem IsBoundary.exists_before {place : Nat} (boundary : IsBoundary text place)
    (behind : 0 < place) :
    ∃ before < place, IsBoundary text before ∧ nextUtf8Boundary text before = place := by
  obtain ⟨count, rfl⟩ := boundary
  induction count with
  | zero => exact absurd behind (Nat.lt_irrefl 0)
  | succ count ih =>
    rcases Nat.lt_or_ge (utf8ByteOffsetForCodepointCount text count) text.length with inside | over_
    · refine ⟨_, ?_, ⟨count, rfl⟩, nextUtf8Boundary_walk text count⟩
      rw [← nextUtf8Boundary_walk]
      exact lt_nextUtf8Boundary inside
    · have same : utf8ByteOffsetForCodepointCount text (count + 1) =
          utf8ByteOffsetForCodepointCount text count := by
        exact if_neg (Nat.not_lt_of_le over_)
      rw [same] at behind ⊢
      exact ih behind

/-! ### What lies between two boundaries -/

/-- The bytes of a code point behind its first are continuation bytes. -/
theorem isContinuationAt_inside {place inner : Nat} (inside : place < text.length)
    (behind : place < inner) (within : inner < nextUtf8Boundary text place) :
    isContinuationAt text inner = true := by
  rw [nextUtf8Boundary_eq inside] at within
  obtain ⟨lead, rest, at_⟩ := exists_cons_of_ne_nil
    (ne_nil_of_length_pos (by rw [length_drop]; omega : 0 < (text.drop place).length))
  have last := (utf8SequenceLength_drop inside).2
  have size := congrArg List.length at_
  rw [length_drop, length_cons] at size
  have tail := codePoint_tail lead rest
  rw [← at_] at tail
  have byte : text.getD inner 0 = rest.getD (inner - place - 1) 0 := by
    have index : inner = place + (inner - place - 1 + 1) := by omega
    conv => lhs; rw [index, getD_eq_getElem?_getD, ← getElem?_drop, at_]
    rw [getElem?_cons_succ, getD_eq_getElem?_getD]
  rw [isContinuationAt, byte]
  refine tail _ ?_
  have bound : inner - place - 1 < rest.length := by omega
  rw [getD_eq_getElem _ _ bound, mem_take_iff_getElem]
  exact ⟨inner - place - 1, by omega, rfl⟩

/-- A byte that is no continuation byte starts a code point. -/
theorem isBoundary_of_lead {place : Nat} (inside : place < text.length)
    (lead : isContinuationAt text place = false) : IsBoundary text place := by
  have up : ∀ count, place < utf8ByteOffsetForCodepointCount text count → IsBoundary text place := by
    intro count
    induction count with
    | zero => exact fun before => absurd before (Nat.not_lt_zero _)
    | succ count ih =>
      intro before
      rcases Nat.lt_trichotomy place (utf8ByteOffsetForCodepointCount text count) with
        earlier | here | behind
      · exact ih earlier
      · exact ⟨count, here.symm⟩
      · rw [← nextUtf8Boundary_walk] at before
        rw [isContinuationAt_inside (behind.trans inside) behind before] at lead
        exact absurd lead.symm Bool.false_ne_true
  exact up text.length (by rwa [utf8ByteOffset_length])

theorem backOver_le (text : Line) (place : Nat) : backOver text place ≤ place := by
  induction place with
  | zero => exact le_rfl
  | succ place ih =>
    rw [backOver]
    split
    · exact ih.trans (Nat.le_succ place)
    · exact le_rfl

/-- Continuation bytes are gone over. -/
theorem backOver_eq {place further : Nat} (le : place ≤ further)
    (bytes : ∀ inner, place < inner → inner ≤ further → isContinuationAt text inner = true) :
    backOver text further = backOver text place := by
  induction further, le using Nat.le_induction with
  | base => rfl
  | succ further le ih =>
    rw [backOver, if_pos (bytes _ (Nat.lt_succ_of_le le) le_rfl)]
    exact ih fun inner behind within => bytes inner behind (within.trans (Nat.le_succ further))

theorem backOver_eq_self_iff (place : Nat) :
    backOver text place = place ↔ place = 0 ∨ isContinuationAt text place = false := by
  cases place with
  | zero => exact ⟨fun _ => Or.inl rfl, fun _ => rfl⟩
  | succ place =>
    rw [backOver]
    split
    next continuation =>
      have := backOver_le text place
      simp only [continuation, Nat.succ_ne_zero, or_self, Bool.true_eq_false, iff_false]
      omega
    next lead =>
      exact ⟨fun _ => Or.inr (Bool.eq_false_of_not_eq_true lead), fun _ => rfl⟩

/-- A step back ends where a code point starts. -/
theorem isBoundary_backOver {place : Nat} (inside : place < text.length) :
    IsBoundary text (backOver text place) := by
  induction place with
  | zero => exact isBoundary_zero text
  | succ place ih =>
    rw [backOver]
    split
    · exact ih (Nat.lt_of_succ_lt inside)
    · exact isBoundary_of_lead inside (Bool.eq_false_of_not_eq_true ‹_›)

/-- A step back from the boundary behind a place goes as a step back that starts at the place. -/
theorem previous_next {place : Nat} (inside : place < text.length) :
    previousUtf8Boundary text (nextUtf8Boundary text place) = backOver text place := by
  have step := lt_nextUtf8Boundary inside
  have within : nextUtf8Boundary text place ≤ text.length := by
    rw [nextUtf8Boundary_eq inside]
    exact (utf8SequenceLength_drop inside).2
  rw [previousUtf8Boundary, min_eq_left within, if_neg (by omega)]
  exact backOver_eq (by omega) fun inner behind last =>
    isContinuationAt_inside inside behind (by omega)

/-- **A step back undoes a step forward just where the byte starts a sequence**, or the text. -/
theorem previous_next_iff {place : Nat} (inside : place < text.length) :
    previousUtf8Boundary text (nextUtf8Boundary text place) = place ↔
      place = 0 ∨ isContinuationAt text place = false := by
  rw [previous_next inside, backOver_eq_self_iff]

/-- **And a step forward undoes the step back under the same condition.** -/
theorem next_previous_iff {place : Nat} (boundary : IsBoundary text place)
    (inside : place < text.length) :
    nextUtf8Boundary text (previousUtf8Boundary text (nextUtf8Boundary text place)) =
        nextUtf8Boundary text place ↔ place = 0 ∨ isContinuationAt text place = false := by
  rw [previous_next inside, ← backOver_eq_self_iff]
  constructor
  · intro undone
    by_contra moved
    have back := lt_of_le_of_ne (backOver_le text place) moved
    have short := (isBoundary_backOver inside).next_le boundary back
    exact absurd (undone ▸ short) (Nat.not_le_of_lt (lt_nextUtf8Boundary inside))
  · exact fun same => same.symm ▸ rfl

end Walk

/-! ### Malformed bytes -/

/-- The loop of `util::ReplaceInvalidUtf8Bytes`: the text it leaves, and whether it replaced. -/
def replaceInvalidFrom (replacement : UInt8) : Nat → Line → Line × Bool
  | 0, _ => ([], false)
  | _ + 1, [] => ([], false)
  | rounds + 1, lead :: rest =>
    if lead ≤ 0x7F then
      let behind := replaceInvalidFrom replacement rounds rest
      (lead :: behind.1, behind.2)
    else
      let length := utf8SequenceLength (lead :: rest)
      if length ≤ 1 then
        (replacement :: (replaceInvalidFrom replacement rounds rest).1, true)
      else
        let behind := replaceInvalidFrom replacement rounds ((lead :: rest).drop length)
        ((lead :: rest).take length ++ behind.1, behind.2)

/-- `util::ReplaceInvalidUtf8Bytes`. -/
def replaceInvalidUtf8Bytes (text : Line) (replacement : UInt8) : Line × Bool :=
  replaceInvalidFrom replacement text.length text

/-- The loop of `util::IsValidUtf8`. -/
def isValidUtf8From : Nat → Line → Bool
  | 0, _ => true
  | _ + 1, [] => true
  | rounds + 1, lead :: rest =>
    let sequenceLength := utf8SequenceLength (lead :: rest)
    if sequenceLength = 0 then false
    else if 0x7F < lead ∧ sequenceLength = 1 then false
    else isValidUtf8From rounds ((lead :: rest).drop sequenceLength)

/-- `util::IsValidUtf8`. -/
def isValidUtf8 (content : Line) : Bool := isValidUtf8From content.length content

/-- A code point that is a malformed byte. -/
def isMalformed : Line → Bool
  | [byte] => 0x7F < byte
  | _ => false

/-- What replacing makes of a code point. -/
def replaceGlyph (replacement : UInt8) (glyph : Line) : Line :=
  if isMalformed glyph then [replacement] else glyph

theorem length_replaceGlyph (replacement : UInt8) (glyph : Line) :
    (replaceGlyph replacement glyph).length = glyph.length := by
  rw [replaceGlyph]
  split
  next malformed =>
    unfold isMalformed at malformed
    split at malformed
    · rfl
    · exact absurd malformed Bool.false_ne_true
  · rfl

theorem isMalformed_take (lead : UInt8) (rest : Line) :
    isMalformed ((lead :: rest).take (utf8SequenceLength (lead :: rest))) =
      decide (0x7F < lead ∧ utf8SequenceLength (lead :: rest) = 1) := by
  have bounds := utf8SequenceLength_bounds lead rest
  by_cases alone : utf8SequenceLength (lead :: rest) = 1
  · rw [alone, take_succ_cons, take_zero, isMalformed]
    exact decide_eq_decide.mpr (by simp only [and_true])
  · rw [decide_eq_false (fun both => alone both.2)]
    obtain ⟨n, size⟩ : ∃ n, utf8SequenceLength (lead :: rest) = n + 2 :=
      ⟨utf8SequenceLength (lead :: rest) - 2, by omega⟩
    cases rest with
    | nil =>
      rw [length_nil] at bounds
      omega
    | cons second rest =>
      rw [size]
      rfl

theorem replaceInvalidFrom_eq (replacement : UInt8) {rounds : Nat} {text : Line}
    (enough : text.length ≤ rounds) : replaceInvalidFrom replacement rounds text =
      (((codePoints text).map (replaceGlyph replacement)).flatten,
        (codePoints text).any isMalformed) := by
  induction rounds generalizing text with
  | zero =>
    rw [length_eq_zero_iff.mp (Nat.le_zero.mp enough)]
    rfl
  | succ rounds ih =>
    cases text with
    | nil => rfl
    | cons lead rest =>
      rw [length_cons] at enough
      have bounds := utf8SequenceLength_bounds lead rest
      have malformed := isMalformed_take lead rest
      rw [replaceInvalidFrom, codePoints_cons, map_cons, flatten_cons, any_cons,
        replaceGlyph, malformed]
      split
      next ascii =>
        rw [UInt8.le_iff_toNat_le] at ascii
        have alone : utf8SequenceLength (lead :: rest) = 1 := by
          rw [utf8SequenceLength, if_pos (UInt8.le_iff_toNat_le.mpr ascii)]
        rw [alone, decide_eq_false (by rw [UInt8.lt_iff_toNat_lt]; omega), Bool.false_or,
          if_neg Bool.false_ne_true, ih (by omega)]
        rfl
      next high =>
        rw [UInt8.not_le] at high
        dsimp only
        split
        · have alone : utf8SequenceLength (lead :: rest) = 1 := by omega
          rw [alone, decide_eq_true ⟨high, rfl⟩, Bool.true_or, if_pos rfl, ih (by omega)]
          rfl
        · rw [decide_eq_false (by omega), Bool.false_or, if_neg Bool.false_ne_true,
            ih (by rw [length_drop, length_cons]; omega)]

theorem isValidUtf8From_eq {rounds : Nat} {text : Line} (enough : text.length ≤ rounds) :
    isValidUtf8From rounds text = (codePoints text).all fun glyph => !isMalformed glyph := by
  induction rounds generalizing text with
  | zero =>
    rw [length_eq_zero_iff.mp (Nat.le_zero.mp enough)]
    rfl
  | succ rounds ih =>
    cases text with
    | nil => rfl
    | cons lead rest =>
      rw [length_cons] at enough
      have bounds := utf8SequenceLength_bounds lead rest
      rw [isValidUtf8From, codePoints_cons, all_cons, isMalformed_take]
      rw [if_neg (by omega)]
      split
      · rw [decide_eq_true ‹_›]
        rfl
      · rw [decide_eq_false ‹_›, ih (by rw [length_drop, length_cons]; omega)]
        rfl

theorem replaceInvalid_eq (text : Line) (replacement : UInt8) :
    replaceInvalidUtf8Bytes text replacement =
      (((codePoints text).map (replaceGlyph replacement)).flatten,
        (codePoints text).any isMalformed) :=
  replaceInvalidFrom_eq replacement le_rfl

theorem isValidUtf8_eq (text : Line) :
    isValidUtf8 text = (codePoints text).all fun glyph => !isMalformed glyph :=
  isValidUtf8From_eq le_rfl

/-- A sequence of several bytes is a code point whatever follows it. -/
theorem codePoints_several {glyph rest : Line}
    (first : codePoints (glyph ++ rest) = glyph :: codePoints rest) (several : 1 < glyph.length)
    (other : Line) : codePoints (glyph ++ other) = glyph :: codePoints other := by
  obtain ⟨lead, tail, rfl⟩ := exists_cons_of_ne_nil (ne_nil_of_length_pos
    (Nat.lt_trans Nat.zero_lt_one several))
  have size := codePoint_size first
  rw [length_cons] at several
  obtain ⟨codepoint, scalar, pattern⟩ := multiByte_of_utf8SequenceLength
    (show 1 < utf8SequenceLength (lead :: (tail ++ rest)) by omega)
  rw [size, take_succ_cons, take_left] at pattern
  have kept := utf8SequenceLength_multiByte scalar pattern other
  rw [cons_append, codePoints_cons, ← cons_append, kept, take_left, drop_left]

/-- **Replacing works code point by code point.** -/
theorem replaceInvalid_parts (text : Line) {replacement : UInt8} (ascii : replacement ≤ 0x7F) :
    codePoints (replaceInvalidUtf8Bytes text replacement).1 =
      (codePoints text).map (replaceGlyph replacement) := by
  rw [replaceInvalid_eq]
  induction text using walkInduction with
  | nil => rfl
  | step glyph rest first low high ih =>
    have ascii' : ∀ byte : UInt8, byte ≤ 0x7F → byte < 0x80 := by
      intro byte small
      exact UInt8.lt_iff_toNat_lt.mpr (Nat.lt_succ_of_le small)
    rw [first, map_cons, flatten_cons]
    rcases Nat.lt_or_eq_of_le low with several | alone
    · have whole : isMalformed glyph = false := by
        unfold isMalformed
        split
        · exact absurd several (Nat.lt_irrefl 1)
        · rfl
      rw [replaceGlyph, if_neg (by rw [whole]; exact Bool.false_ne_true),
        codePoints_several first several, ih]
    · obtain ⟨byte, rfl⟩ := length_eq_one_iff.mp alone.symm
      rw [replaceGlyph]
      split
      · rw [singleton_append, codePoints_ascii (ascii' _ ascii), ih]
      next fine =>
        rw [isMalformed, decide_eq_true_eq, UInt8.not_lt] at fine
        rw [singleton_append, codePoints_ascii (ascii' _ fine), ih]

theorem isMalformed_replaceGlyph {replacement : UInt8} (ascii : replacement ≤ 0x7F) (glyph : Line) :
    isMalformed (replaceGlyph replacement glyph) = false := by
  rw [replaceGlyph]
  split
  · exact decide_eq_false (UInt8.not_lt.mpr ascii)
  · exact Bool.eq_false_of_not_eq_true ‹_›

theorem isValidUtf8_replaceInvalid (text : Line) {replacement : UInt8} (ascii : replacement ≤ 0x7F) :
    isValidUtf8 (replaceInvalidUtf8Bytes text replacement).1 = true := by
  rw [isValidUtf8_eq, replaceInvalid_parts text ascii, all_map]
  refine all_eq_true.mpr fun glyph _ => ?_
  rw [Function.comp_apply, isMalformed_replaceGlyph ascii]
  rfl

theorem replaceInvalid_of_valid {text : Line} (valid : isValidUtf8 text = true) (replacement : UInt8) :
    replaceInvalidUtf8Bytes text replacement = (text, false) := by
  rw [isValidUtf8_eq, all_eq_true] at valid
  have fine : ∀ glyph ∈ codePoints text, isMalformed glyph = false := by
    intro glyph mem
    exact Bool.not_eq_true' _ |>.mp (valid glyph mem)
  rw [replaceInvalid_eq]
  refine Prod.ext ?_ ?_
  · have same : ∀ glyph ∈ codePoints text, replaceGlyph replacement glyph = glyph := by
      intro glyph mem
      rw [replaceGlyph, if_neg (by rw [fine glyph mem]; exact Bool.false_ne_true)]
    calc ((codePoints text).map (replaceGlyph replacement)).flatten
        = ((codePoints text).map id).flatten := by rw [map_congr_left same]; rfl
      _ = text := by rw [map_id, flatten_codePoints]
  · exact any_eq_false.mpr fun glyph mem => by rw [fine glyph mem]; exact Bool.false_ne_true

/-! ### Boundaries of the code points -/

/-- Behind the first code point the walk goes on as from a start. -/
theorem utf8ByteOffset_append {glyph rest : Line}
    (first : codePoints (glyph ++ rest) = glyph :: codePoints rest) (low : 1 ≤ glyph.length)
    (count : Nat) : utf8ByteOffsetForCodepointCount (glyph ++ rest) (count + 1) =
      glyph.length + utf8ByteOffsetForCodepointCount rest count := by
  induction count with
  | zero =>
    obtain ⟨lead, tail, rfl⟩ := exists_cons_of_ne_nil (ne_nil_of_length_pos low)
    rw [utf8ByteOffset_succ (by rw [utf8ByteOffsetForCodepointCount, length_append]; omega)]
    rw [utf8ByteOffsetForCodepointCount, utf8ByteOffsetForCodepointCount, drop_zero,
      cons_append, codePoint_size first, Nat.zero_add, length_cons, Nat.add_zero]
  | succ count ih =>
    have inside : glyph.length + utf8ByteOffsetForCodepointCount rest count <
        (glyph ++ rest).length ↔ utf8ByteOffsetForCodepointCount rest count < rest.length := by
      rw [length_append, Nat.add_lt_add_iff_left]
    rw [utf8ByteOffsetForCodepointCount, ih, drop_length_add_append]
    conv => rhs; rw [utf8ByteOffsetForCodepointCount]
    split
    · rw [if_pos (inside.mp ‹_›), Nat.add_assoc]
    · rw [if_neg fun more => ‹¬_› (inside.mpr more)]

/-- The walk's places are the ends of the first code points. -/
theorem utf8ByteOffset_eq (text : Line) (count : Nat) :
    utf8ByteOffsetForCodepointCount text count =
      (((codePoints text).map List.length).take count).sum := by
  induction text using walkInduction generalizing count with
  | nil =>
    rw [codePoints_nil, map_nil, take_nil, sum_nil]
    exact Nat.le_zero.mp (utf8ByteOffset_le [] count)
  | step glyph rest first low _ ih =>
    cases count with
    | zero => rfl
    | succ count =>
      rw [utf8ByteOffset_append first low, ih, first, map_cons, take_succ_cons, sum_cons]

/-- Texts whose code points have the same lengths have the same boundaries. -/
theorem isBoundary_congr {text other : Line}
    (same : (codePoints text).map List.length = (codePoints other).map List.length) (place : Nat) :
    IsBoundary text place ↔ IsBoundary other place := by
  unfold IsBoundary
  simp only [utf8ByteOffset_eq, same]

/-- **Replacing moves no boundary.** -/
theorem isBoundary_replaceInvalid (text : Line) {replacement : UInt8} (ascii : replacement ≤ 0x7F)
    (place : Nat) : IsBoundary (replaceInvalidUtf8Bytes text replacement).1 place ↔
      IsBoundary text place := by
  refine isBoundary_congr ?_ place
  rw [replaceInvalid_parts text ascii, map_map]
  exact map_congr_left fun glyph _ => length_replaceGlyph replacement glyph

theorem length_replaceInvalid (text : Line) (replacement : UInt8) :
    (replaceInvalidUtf8Bytes text replacement).1.length = text.length := by
  have same : (codePoints text).map (List.length ∘ replaceGlyph replacement) =
      (codePoints text).map List.length :=
    map_congr_left fun glyph _ => length_replaceGlyph replacement glyph
  rw [replaceInvalid_eq, length_flatten, map_map, same, ← length_flatten, flatten_codePoints]

/-- In valid text every code point starts with a byte that is no continuation byte. -/
theorem isContinuationAt_of_valid {text : Line} (valid : isValidUtf8 text = true) {place : Nat}
    (boundary : IsBoundary text place) (inside : place < text.length) :
    isContinuationAt text place = false := by
  obtain ⟨count, rfl⟩ := boundary
  induction text using walkInduction generalizing count with
  | nil => exact absurd inside (Nat.not_lt_zero _)
  | step glyph rest first low high ih =>
    rw [isValidUtf8_eq, first, all_cons, Bool.and_eq_true, ← isValidUtf8_eq] at valid
    obtain ⟨fine, valid⟩ := valid
    cases count with
    | zero =>
      obtain ⟨lead, tail, rfl⟩ := exists_cons_of_ne_nil (ne_nil_of_length_pos low)
      by_contra continuation
      have tail_ := (isTail_iff lead).mp (Bool.eq_true_of_not_eq_false continuation)
      rw [IsTail] at tail_
      have owed : continuationsOwed lead = 0 := by
        rw [continuationsOwed_eq, if_neg (by omega), if_neg (by omega), if_neg (by omega)]
      have size := codePoint_size first
      rw [utf8SequenceLength_eq, owed] at size
      have alone : tail = [] := by
        refine eq_nil_of_length_eq_zero ?_
        split at size <;> omega
      have high : 0x7F < lead := UInt8.lt_iff_toNat_lt.mpr (show 0x7F < lead.toNat by omega)
      rw [alone, isMalformed, decide_eq_true high] at fine
      exact absurd fine Bool.false_ne_true
    | succ count =>
      rw [utf8ByteOffset_append first low] at inside ⊢
      rw [length_append, Nat.add_lt_add_iff_left] at inside
      rw [isContinuationAt, getD_append_right _ _ _ _ (Nat.le_add_right _ _),
        Nat.add_sub_cancel_left]
      exact ih valid count inside

/-- **UTF-8's laws.** The decoder undoes the encoder; the classifier finds the sequences of several
bytes; replacing keeps the length and the boundaries, leaves valid text and does nothing twice; and
a step back undoes a step forward, and the other way about, where a sequence starts at the boundary
and not a continuation byte on its own, as in valid text. -/
theorem utf8Laws :
    (∀ codepoint, IsScalar codepoint → decodeUtf8Codepoint (appendUtf8 codepoint) = codepoint) ∧
    (∀ (text : Line) (offset : Nat),
      1 < utf8SequenceLength (text.drop offset) ↔ StartsMultiByte (text.drop offset)) ∧
    (∀ (text : Line) (replacement : UInt8), replacement ≤ 0x7F →
      (replaceInvalidUtf8Bytes text replacement).1.length = text.length ∧
      isValidUtf8 (replaceInvalidUtf8Bytes text replacement).1 = true ∧
      (∀ place, IsBoundary (replaceInvalidUtf8Bytes text replacement).1 place ↔
        IsBoundary text place) ∧
      replaceInvalidUtf8Bytes (replaceInvalidUtf8Bytes text replacement).1 replacement =
        ((replaceInvalidUtf8Bytes text replacement).1, false)) ∧
    (∀ (text : Line) (place : Nat), IsBoundary text place → place < text.length →
      (previousUtf8Boundary text (nextUtf8Boundary text place) = place ↔
        place = 0 ∨ isContinuationAt text place = false) ∧
      (nextUtf8Boundary text (previousUtf8Boundary text (nextUtf8Boundary text place)) =
        nextUtf8Boundary text place ↔ place = 0 ∨ isContinuationAt text place = false)) ∧
    (∀ (text : Line) (place : Nat), isValidUtf8 text = true → IsBoundary text place →
      (place < text.length → previousUtf8Boundary text (nextUtf8Boundary text place) = place) ∧
      (0 < place → nextUtf8Boundary text (previousUtf8Boundary text place) = place)) := by
  refine ⟨fun _ => decodeUtf8Codepoint_appendUtf8, fun _ _ => utf8SequenceLength_several_iff _,
    ?_, ?_, ?_⟩
  · intro text replacement ascii
    have valid := isValidUtf8_replaceInvalid text ascii
    exact ⟨length_replaceInvalid text replacement, valid, isBoundary_replaceInvalid text ascii,
      replaceInvalid_of_valid valid replacement⟩
  · intro text place boundary inside
    exact ⟨previous_next_iff inside, next_previous_iff boundary inside⟩
  · intro text place valid boundary
    have lead := @isContinuationAt_of_valid text valid
    constructor
    · intro inside
      exact (previous_next_iff inside).mpr (Or.inr (lead boundary inside))
    · intro behind
      obtain ⟨before, less, boundary', rfl⟩ := boundary.exists_before behind
      have inside : before < text.length := by
        by_contra end_
        rw [nextUtf8Boundary, min_eq_right (Nat.le_of_not_lt end_), if_pos le_rfl] at less
        exact end_ less
      exact (next_previous_iff boundary' inside).mpr (Or.inr (lead boundary' inside))

/-- `é` there and back, and a step back from the end of `aé`. -/
theorem utf8Laws_latin :
    decodeUtf8Codepoint (appendUtf8 0xE9) = 0xE9 ∧
      isValidUtf8 (replaceInvalidUtf8Bytes [0x61, 0xE9] 0x3F).1 = true ∧
      nextUtf8Boundary [0x61, 0xC3, 0xA9] (previousUtf8Boundary [0x61, 0xC3, 0xA9] 3) = 3 :=
  ⟨utf8Laws.1 0xE9 ⟨by decide, by decide⟩, (utf8Laws.2.2.1 [0x61, 0xE9] 0x3F (by decide)).2.1,
    (utf8Laws.2.2.2.2 [0x61, 0xC3, 0xA9] 3 (by decide) ⟨2, by decide⟩).2 (by decide)⟩

/-- Two bytes `80` behind an `a`: a step back over both. -/
theorem not_previous_next :
    ¬∀ (text : Line) (place : Nat), IsBoundary text place → place < text.length →
      previousUtf8Boundary text (nextUtf8Boundary text place) = place := by
  intro all
  exact absurd (all [0x61, 0x80, 0x80] 1 ⟨1, rfl⟩ (by decide)) (by decide)

end Microide.Util
