/-
Position encodings of the language server protocol.

A server counts along a line in bytes, in UTF-16 code units or in code points; the editor keeps
bytes. Of these UTF-16 and UTF-32 are counted along the walk of the code points, so that a boundary
and its count are two scales of that walk. UTF-8 needs no count; an offset is put back over
continuation bytes.

**Main results.** `utf16Column_marks`, `utf16Character_eq`: the two walks of UTF-16 against the
scale of its units; `utf8CodepointCount_take`; `positionEncodings`.
-/

import Microide.Lib.Scales
import Microide.Util.Utf8Boundaries

namespace Microide.Workspace

open List Text Editor Util Lib Or

/-- `lsp_encoding::PositionEncoding`. -/
inductive PositionEncoding where
  | utf8
  | utf16
  | utf32
  deriving DecidableEq

/-- `StepCodepoint`: the length of the sequence at `byte` and its code point. -/
def stepCodepoint (line : Line) (byte : Nat) : Nat × Nat :=
  let length := utf8SequenceLength (line.drop byte)
  let len := if length = 0 ∨ byte + length > line.length then 1 else length
  (len, decodeUtf8Codepoint ((line.drop byte).take len))

/-- `Utf16Units`. -/
def utf16Units (cp : Nat) : Nat := if cp ≥ 0x10000 then 2 else 1

/-- The loop of `util::Utf8CodepointCount`. -/
def utf8CodepointCountFrom : Nat → Line → Nat
  | 0, _ => 0
  | _ + 1, [] => 0
  | rounds + 1, lead :: rest =>
    utf8CodepointCountFrom rounds ((lead :: rest).drop (utf8SequenceLength (lead :: rest))) + 1

/-- `util::Utf8CodepointCount`. -/
def utf8CodepointCount (text : Line) : Nat := utf8CodepointCountFrom text.length text

/-- The loop of `LspCharacterToByteColumn` for UTF-8: back over continuation bytes, but not from
the line's end. -/
def snapBack (line : Line) : Nat → Nat
  | 0 => 0
  | byte + 1 =>
    if byte + 1 < line.length ∧ isContinuationAt line (byte + 1) then snapBack line byte
    else byte + 1

/-- The loop of `LspCharacterToByteColumn` for UTF-16, at most `rounds` code points. -/
def utf16ColumnFrom (line : Line) (character : Nat) : Nat → Nat → Nat → Nat
  | 0, byte, _ => byte
  | rounds + 1, byte, units =>
    if byte < line.length ∧ units < character then
      let (len, cp) := stepCodepoint line byte
      if units + utf16Units cp > character then byte
      else utf16ColumnFrom line character rounds (byte + len) (units + utf16Units cp)
    else byte

/-- The loop of `ByteColumnToLspCharacter` for UTF-16. -/
def utf16CharacterFrom (line : Line) (clamped : Nat) : Nat → Nat → Nat → Nat
  | 0, _, units => units
  | rounds + 1, byte, units =>
    if byte < clamped then
      let (len, cp) := stepCodepoint line byte
      if byte + len > clamped then units
      else utf16CharacterFrom line clamped rounds (byte + len) (units + utf16Units cp)
    else units

/-- `LspCharacterToByteColumn`. -/
def lspCharacterToByteColumn (line : Line) (character : Nat) : PositionEncoding → Nat
  | .utf8 => snapBack line (min character line.length)
  | .utf32 => utf8ByteOffsetForCodepointCount line character
  | .utf16 => utf16ColumnFrom line character line.length 0 0

/-- `ByteColumnToLspCharacter`. -/
def byteColumnToLspCharacter (line : Line) (byteColumn : Nat) : PositionEncoding → Nat
  | .utf8 => min byteColumn line.length
  | .utf32 => utf8CodepointCount (line.take (min byteColumn line.length))
  | .utf16 => utf16CharacterFrom line (min byteColumn line.length) line.length 0 0

/-! ### UTF-8 -/

theorem snapBack_length (line : Line) : snapBack line line.length = line.length := by
  cases size : line.length with
  | zero => rfl
  | succ last => rw [snapBack, size, if_neg fun both => Nat.lt_irrefl _ both.1]

theorem snapBack_eq {line : Line} {byte : Nat} (inside : byte < line.length) :
    snapBack line byte = backOver line byte := by
  induction byte with
  | zero => rfl
  | succ byte ih =>
    rw [snapBack, backOver, ih (Nat.lt_of_succ_lt inside)]
    exact if_congr (and_iff_right inside) rfl rfl

theorem backOver_mono (line : Line) : Monotone (backOver line) := by
  refine monotone_nat_of_le_succ fun byte => ?_
  conv => rhs; rw [backOver]
  split
  · exact le_rfl
  · exact (backOver_le line byte).trans (Nat.le_succ byte)

/-! ### UTF-16 -/

/-- The code units of the first code points of a line. -/
def utf16UnitsAt (line : Line) : Nat → Nat
  | 0 => 0
  | count + 1 =>
    let byte := utf8ByteOffsetForCodepointCount line count
    if byte < line.length then utf16UnitsAt line count + utf16Units (stepCodepoint line byte).2
    else utf16UnitsAt line count

theorem utf16Units_pos (cp : Nat) : 0 < utf16Units cp := by
  rw [utf16Units]
  split <;> decide

section Utf16

variable {line : Line}

theorem utf16UnitsAt_succ {count : Nat}
    (inside : utf8ByteOffsetForCodepointCount line count < line.length) :
    utf16UnitsAt line (count + 1) = utf16UnitsAt line count +
      utf16Units (stepCodepoint line (utf8ByteOffsetForCodepointCount line count)).2 := by
  exact if_pos inside

theorem stepCodepoint_length {count : Nat}
    (inside : utf8ByteOffsetForCodepointCount line count < line.length) :
    utf8ByteOffsetForCodepointCount line count +
        (stepCodepoint line (utf8ByteOffsetForCodepointCount line count)).1 =
      utf8ByteOffsetForCodepointCount line (count + 1) := by
  have bounds := utf8SequenceLength_drop inside
  rw [utf8ByteOffset_succ inside, stepCodepoint]
  rw [if_neg (by omega)]

/-- The boundaries of a line and the code units before them. -/
theorem utf16Scale (line : Line) :
    Scale line.length (utf8ByteOffsetForCodepointCount line) (utf16UnitsAt line) where
  rises := utf8ByteOffset_mono line
  within := utf8ByteOffset_le line
  step count inside := by
    constructor
    · rw [← nextUtf8Boundary_walk]
      exact lt_nextUtf8Boundary inside
    · rw [utf16UnitsAt_succ inside]
      exact Nat.lt_add_of_pos_right (utf16Units_pos _)
  still count over_ := by
    exact if_neg (Nat.not_lt_of_le over_.ge)
  ends := ⟨_, utf8ByteOffset_length line⟩

theorem utf16ColumnFrom_marks {character rounds count : Nat} (enough : line.length ≤ count + rounds)
    (reached : utf16UnitsAt line count ≤ character) :
    Scale.Marks line.length (utf8ByteOffsetForCodepointCount line) (utf16UnitsAt line) character
      (utf16ColumnFrom line character rounds (utf8ByteOffsetForCodepointCount line count)
        (utf16UnitsAt line count)) := by
  induction rounds generalizing count with
  | zero =>
    refine ⟨count, rfl, reached, inl ?_⟩
    have floor := min_le_utf8ByteOffset line count
    rw [min_eq_right (by omega)] at floor
    exact le_antisymm (utf8ByteOffset_le line count) floor
  | succ rounds ih =>
    rw [utf16ColumnFrom]
    split
    next goes =>
      have units := utf16UnitsAt_succ goes.1
      dsimp only
      split
      · exact ⟨count, rfl, reached, inr (by omega)⟩
      · rw [stepCodepoint_length goes.1, ← units]
        exact ih (by omega) (by omega)
    next stops =>
      rcases Nat.lt_or_eq_of_le (utf8ByteOffset_le line count) with inside | over_
      · have := ((utf16Scale line).step count inside).2
        exact ⟨count, rfl, reached, inr (by omega)⟩
      · exact ⟨count, rfl, reached, inl over_⟩

/-- **From units to the boundary they mark.** -/
theorem utf16Column_marks (line : Line) (character : Nat) :
    Scale.Marks line.length (utf8ByteOffsetForCodepointCount line) (utf16UnitsAt line) character
      (lspCharacterToByteColumn line character .utf16) :=
  @utf16ColumnFrom_marks line character line.length 0 (Nat.le_add_left _ _) (Nat.zero_le _)

theorem utf16CharacterFrom_eq {clamped rounds count : Nat} (bound : clamped ≤ line.length)
    (enough : line.length ≤ count + rounds)
    (reached : utf8ByteOffsetForCodepointCount line count ≤ clamped) :
    ∃ last, utf16CharacterFrom line clamped rounds (utf8ByteOffsetForCodepointCount line count)
        (utf16UnitsAt line count) = utf16UnitsAt line last ∧
      utf8ByteOffsetForCodepointCount line last ≤ clamped ∧
      (clamped ≤ utf8ByteOffsetForCodepointCount line last ∨
        clamped < utf8ByteOffsetForCodepointCount line (last + 1)) := by
  induction rounds generalizing count with
  | zero =>
    refine ⟨count, rfl, reached, inl ?_⟩
    have floor := min_le_utf8ByteOffset line count
    rw [min_eq_right (by omega)] at floor
    exact bound.trans floor
  | succ rounds ih =>
    rw [utf16CharacterFrom]
    split
    next goes =>
      have inside := Nat.lt_of_lt_of_le goes bound
      have length := stepCodepoint_length inside
      dsimp only
      split
      · exact ⟨count, rfl, reached, inr (by omega)⟩
      · rw [length, ← utf16UnitsAt_succ inside]
        exact ih (by omega) (by omega)
    · exact ⟨count, rfl, reached, inl (by omega)⟩

/-- **From a byte of a code point to the units before the code point.** -/
theorem utf16Character_eq {count column : Nat}
    (from_ : utf8ByteOffsetForCodepointCount line count ≤ column)
    (upTo : utf8ByteOffsetForCodepointCount line count = line.length ∨
      column < utf8ByteOffsetForCodepointCount line (count + 1)) :
    byteColumnToLspCharacter line column .utf16 = utf16UnitsAt line count := by
  have within := utf8ByteOffset_le line count
  obtain ⟨last, units, low, high⟩ := @utf16CharacterFrom_eq line (min column line.length)
    line.length 0 (min_le_right _ _) (Nat.le_add_left _ _) (Nat.zero_le _)
  refine units.trans ((utf16Scale line).unit_eq ?_)
  have rises := utf8ByteOffset_mono line
  rcases Nat.lt_trichotomy (utf8ByteOffsetForCodepointCount line last)
    (utf8ByteOffsetForCodepointCount line count) with before | same | behind
  · have := rises (show last + 1 ≤ count from rises.reflect_lt before)
    omega
  · exact same
  · have := rises (show count + 1 ≤ last from rises.reflect_lt behind)
    omega

end Utf16

/-! ### UTF-32 -/

theorem utf8CodepointCountFrom_eq {rounds : Nat} {text : Line} (enough : text.length ≤ rounds) :
    utf8CodepointCountFrom rounds text = (codePoints text).length := by
  induction rounds generalizing text with
  | zero =>
    rw [length_eq_zero_iff.mp (Nat.le_zero.mp enough)]
    rfl
  | succ rounds ih =>
    cases text with
    | nil => rfl
    | cons lead rest =>
      have bounds := utf8SequenceLength_bounds lead rest
      rw [length_cons] at enough
      rw [utf8CodepointCountFrom, codePoints_cons, length_cons,
        ih (by rw [length_drop, length_cons]; omega)]

/-- The code points before a boundary. -/
theorem codePoints_take_boundary {line : Line} (count : Nat) :
    codePoints (line.take (utf8ByteOffsetForCodepointCount line count)) =
      (codePoints line).take count := by
  induction line using walkInduction generalizing count with
  | nil => rw [take_nil, codePoints_nil, take_nil]
  | step glyph rest first low _ ih =>
    cases count with
    | zero => rfl
    | succ count =>
      rw [utf8ByteOffset_append first low, take_length_add_append, first, take_succ_cons,
        ← ih count]
      exact codePoints_whole (ne_nil_of_length_pos low) first _

theorem utf8ByteOffset_over {line : Line} {count : Nat} (more : (codePoints line).length ≤ count) :
    utf8ByteOffsetForCodepointCount line count = line.length := by
  rw [utf8ByteOffset_eq, take_of_length_le (by rwa [length_map]), ← length_flatten,
    flatten_codePoints]

theorem lt_codePoints_length {line : Line} {count : Nat}
    (inside : utf8ByteOffsetForCodepointCount line count < line.length) :
    count < (codePoints line).length := by
  by_contra over_
  exact absurd (utf8ByteOffset_over (Nat.not_lt.mp over_)) (Nat.ne_of_lt inside)

/-- The boundaries of a line and the code points before them. -/
theorem utf32Scale (line : Line) : Scale line.length (utf8ByteOffsetForCodepointCount line)
      (fun count => min count (codePoints line).length) where
  rises := utf8ByteOffset_mono line
  within := utf8ByteOffset_le line
  step count inside := by
    have more := lt_codePoints_length inside
    constructor
    · rw [← nextUtf8Boundary_walk]
      exact lt_nextUtf8Boundary inside
    · omega
  still count over_ := by
    have all : (codePoints line).length ≤ count := by
      by_contra fewer
      have parts := congrArg (fun glyphs => (List.map List.length glyphs).sum)
        (take_append_drop count (codePoints line))
      obtain ⟨glyph, behind, at_⟩ := exists_cons_of_ne_nil (ne_nil_of_length_pos
        (by rw [length_drop]; omega : 0 < ((codePoints line).drop count).length))
      have mem : glyph ∈ codePoints line := mem_of_mem_drop (at_ ▸ mem_cons_self)
      have low := (codePoint_length mem).1
      rw [utf8ByteOffset_eq, ← map_take] at over_
      rw [map_append, sum_append, over_, at_, map_cons, sum_cons,
        ← length_flatten, ← length_flatten, flatten_codePoints] at parts
      omega
    omega
  ends := ⟨_, utf8ByteOffset_length line⟩

theorem utf32Column_marks (line : Line) (character : Nat) :
    Scale.Marks line.length (utf8ByteOffsetForCodepointCount line)
      (fun count => min count (codePoints line).length) character
      (lspCharacterToByteColumn line character .utf32) := by
  refine ⟨character, rfl, min_le_left _ _, ?_⟩
  rcases Nat.lt_or_ge character (codePoints line).length with fewer | more
  · refine inr ?_
    dsimp only
    omega
  · exact inl (utf8ByteOffset_over more)

theorem utf32Character_eq (line : Line) (count : Nat) :
    byteColumnToLspCharacter line (utf8ByteOffsetForCodepointCount line count) .utf32 =
      min count (codePoints line).length := by
  rw [byteColumnToLspCharacter, min_eq_left (utf8ByteOffset_le line count), utf8CodepointCount,
    utf8CodepointCountFrom_eq le_rfl, codePoints_take_boundary, length_take]

/-! ### Both ways -/

/-- The units of a wide encoding before the first code points of a line. -/
def unitsAt (line : Line) (encoding : PositionEncoding) (count : Nat) : Nat :=
  if encoding = .utf16 then utf16UnitsAt line count else min count (codePoints line).length

section Wide

variable {line : Line} {encoding : PositionEncoding} (wide : encoding ≠ .utf8)
include wide

theorem wideScale : Scale line.length (utf8ByteOffsetForCodepointCount line)
    (unitsAt line encoding) := by
  cases encoding with
  | utf8 => exact absurd rfl wide
  | utf16 => exact utf16Scale line
  | utf32 => exact utf32Scale line

theorem wideColumn_marks (character : Nat) : Scale.Marks line.length
    (utf8ByteOffsetForCodepointCount line) (unitsAt line encoding) character
    (lspCharacterToByteColumn line character encoding) := by
  cases encoding with
  | utf8 => exact absurd rfl wide
  | utf16 => exact utf16Column_marks line character
  | utf32 => exact utf32Column_marks line character

theorem wideCharacter_eq (count : Nat) :
    byteColumnToLspCharacter line (utf8ByteOffsetForCodepointCount line count) encoding =
      unitsAt line encoding count := by
  cases encoding with
  | utf8 => exact absurd rfl wide
  | utf32 => exact utf32Character_eq line count
  | utf16 =>
    refine utf16Character_eq le_rfl ?_
    rcases Nat.lt_or_eq_of_le (utf8ByteOffset_le line count) with inside | over_
    · exact inr ((utf16Scale line).step count inside).1
    · exact inl over_

/-- Every count of units from a boundary's to less than the next one's marks the boundary. -/
theorem wideColumn_eq {character count : Nat}
    (reached : byteColumnToLspCharacter line (utf8ByteOffsetForCodepointCount line count) encoding ≤
      character)
    (last : utf8ByteOffsetForCodepointCount line count = line.length ∨ character <
      byteColumnToLspCharacter line (utf8ByteOffsetForCodepointCount line (count + 1)) encoding) :
    lspCharacterToByteColumn line character encoding =
      utf8ByteOffsetForCodepointCount line count := by
  rw [wideCharacter_eq wide] at reached last
  exact (wideColumn_marks wide character).eq (wideScale wide) reached last

theorem wideRoundTrip (count : Nat) : lspCharacterToByteColumn line
      (byteColumnToLspCharacter line (utf8ByteOffsetForCodepointCount line count) encoding)
      encoding = utf8ByteOffsetForCodepointCount line count := by
  refine wideColumn_eq wide le_rfl ?_
  rcases Nat.lt_or_eq_of_le (utf8ByteOffset_le line count) with inside | over_
  · rw [wideCharacter_eq wide, wideCharacter_eq wide]
    exact inr (((wideScale wide).step count inside).2)
  · exact inl over_

end Wide

section Narrow

variable {line : Line}

theorem narrowColumn_eq {character : Nat} (inside : character < line.length) :
    lspCharacterToByteColumn line character .utf8 = backOver line character := by
  rw [lspCharacterToByteColumn, min_eq_left inside.le, snapBack_eq inside]

theorem narrowColumn_over {character : Nat} (over_ : line.length ≤ character) :
    lspCharacterToByteColumn line character .utf8 = line.length := by
  rw [lspCharacterToByteColumn, min_eq_right over_, snapBack_length]

/-- Inside a code point lies a byte only where several bytes start, the first of which is no
continuation byte. -/
theorem narrowColumn_inside {place character : Nat} (inside : place < line.length)
    (behind : place < character) (within : character < nextUtf8Boundary line place) :
    lspCharacterToByteColumn line character .utf8 = place := by
  have next := nextUtf8Boundary_eq inside
  have last := (utf8SequenceLength_drop inside).2
  rw [narrowColumn_eq (by omega), backOver_eq behind.le fun inner low high =>
    isContinuationAt_inside inside low (by omega), backOver_eq_self_iff]
  refine inr (Bool.eq_false_of_not_eq_true fun continuation => ?_)
  obtain ⟨lead, rest, at_⟩ := exists_cons_of_ne_nil
    (ne_nil_of_length_pos (by rw [length_drop]; omega : 0 < (line.drop place).length))
  have byte : line.getD place 0 = lead := by
    rw [getD_eq_getElem?_getD, ← head?_drop, at_]
    rfl
  rw [isContinuationAt, byte, isTail_iff, IsTail] at continuation
  have owed : continuationsOwed lead = 0 := by
    rw [continuationsOwed_eq, if_neg (by omega), if_neg (by omega), if_neg (by omega)]
  rw [at_, utf8SequenceLength_eq, owed] at next
  split at next <;> omega

end Narrow

theorem isBoundary_column (line : Line) (character : Nat) (encoding : PositionEncoding) :
    IsBoundary line (lspCharacterToByteColumn line character encoding) := by
  by_cases wide : encoding = .utf8
  · subst wide
    rcases Nat.lt_or_ge character line.length with inside | over_
    · rw [narrowColumn_eq inside]
      exact isBoundary_backOver inside
    · rw [narrowColumn_over over_]
      exact isBoundary_length line
  · obtain ⟨count, same, -⟩ := wideColumn_marks wide character
    exact ⟨count, same⟩

theorem column_mono (line : Line) (encoding : PositionEncoding) :
    Monotone fun character => lspCharacterToByteColumn line character encoding := by
  intro character more le
  dsimp only
  by_cases wide : encoding = .utf8
  · subst wide
    rcases Nat.lt_or_ge more line.length with inside | over_
    · rw [narrowColumn_eq inside, narrowColumn_eq (le.trans_lt inside)]
      exact backOver_mono line le
    · rw [narrowColumn_over over_]
      exact (isBoundary_column line character .utf8).le_length
  · exact (wideColumn_marks wide character).mono (wideScale wide) (wideColumn_marks wide more) le

/-- **Positions convert without loss.** A boundary survives the way to the server and back, in UTF-8
unless a continuation byte on its own stands there; what comes back is a boundary, rises with the
character, and is the start of a code point that the character lies inside of. -/
theorem positionEncodings (line : Line) (encoding : PositionEncoding) :
    (∀ place, IsBoundary line place →
      (lspCharacterToByteColumn line (byteColumnToLspCharacter line place encoding) encoding =
          place ↔
        encoding ≠ .utf8 ∨ place = 0 ∨ isContinuationAt line place = false)) ∧
    (∀ character, IsBoundary line (lspCharacterToByteColumn line character encoding) ∧
      lspCharacterToByteColumn line character encoding ≤ line.length) ∧
    (Monotone fun character => lspCharacterToByteColumn line character encoding) ∧
    (∀ place character, IsBoundary line place → place < line.length →
      byteColumnToLspCharacter line place encoding < character →
      character < byteColumnToLspCharacter line (nextUtf8Boundary line place) encoding →
      lspCharacterToByteColumn line character encoding = place) ∧
    (∀ character, byteColumnToLspCharacter line line.length encoding ≤ character →
      lspCharacterToByteColumn line character encoding = line.length) ∧
    (∀ column, line.length ≤ column → byteColumnToLspCharacter line column encoding =
      byteColumnToLspCharacter line line.length encoding) ∧
    (isValidUtf8 line = true → ∀ place, IsBoundary line place →
      lspCharacterToByteColumn line (byteColumnToLspCharacter line place encoding) encoding =
        place) := by
  have roundTrip : ∀ place, IsBoundary line place →
      (lspCharacterToByteColumn line (byteColumnToLspCharacter line place encoding) encoding =
          place ↔
        encoding ≠ .utf8 ∨ place = 0 ∨ isContinuationAt line place = false) := by
    intro place boundary
    by_cases wide : encoding = .utf8
    · subst wide
      rw [byteColumnToLspCharacter, min_eq_left boundary.le_length]
      rcases Nat.lt_or_eq_of_le boundary.le_length with inside | rfl
      · rw [narrowColumn_eq inside, backOver_eq_self_iff]
        simp only [ne_eq, not_true_eq_false, false_or]
      · rw [narrowColumn_over le_rfl]
        refine iff_of_true rfl (Or.inr (Or.inr ?_))
        rw [isContinuationAt, getD_eq_default _ _ le_rfl]
        rfl
    · obtain ⟨count, rfl⟩ := boundary
      exact iff_of_true (wideRoundTrip wide count) (Or.inl wide)
  refine ⟨roundTrip, ?_, column_mono line encoding, ?_, ?_, ?_, ?_⟩
  · intro character
    have boundary := isBoundary_column line character encoding
    exact ⟨boundary, boundary.le_length⟩
  · intro place character boundary inside behind within
    by_cases wide : encoding = .utf8
    · subst wide
      have next := boundary.next.le_length
      rw [byteColumnToLspCharacter, min_eq_left (by omega)] at behind within
      exact narrowColumn_inside inside behind within
    · obtain ⟨count, rfl⟩ := boundary
      rw [nextUtf8Boundary_walk] at within
      exact wideColumn_eq wide behind.le (Or.inr within)
  · intro character past
    by_cases wide : encoding = .utf8
    · subst wide
      rw [byteColumnToLspCharacter, min_self] at past
      exact narrowColumn_over past
    · obtain ⟨count, over_⟩ := isBoundary_length line
      rw [← over_] at past ⊢
      exact wideColumn_eq wide past (Or.inl over_)
  · intro column past
    cases encoding with
    | utf8 => rw [byteColumnToLspCharacter, byteColumnToLspCharacter, min_eq_right past, min_self]
    | utf16 => rw [byteColumnToLspCharacter, byteColumnToLspCharacter, min_eq_right past, min_self]
    | utf32 => rw [byteColumnToLspCharacter, byteColumnToLspCharacter, min_eq_right past, min_self]
  · intro valid place boundary
    refine (roundTrip place boundary).mpr (Or.inr ?_)
    rcases Nat.lt_or_eq_of_le boundary.le_length with inside | rfl
    · exact Or.inr (isContinuationAt_of_valid valid boundary inside)
    · refine Or.inr ?_
      rw [isContinuationAt, getD_eq_default _ _ le_rfl]
      rfl

/-- A continuation byte on its own is a boundary that UTF-8 does not give back. -/
theorem not_roundTrip :
    ¬∀ (line : Line) (encoding : PositionEncoding) (place : Nat), IsBoundary line place →
      lspCharacterToByteColumn line (byteColumnToLspCharacter line place encoding) encoding =
        place := by
  intro all
  exact absurd (all [0x61, 0x80] .utf8 1 ⟨1, rfl⟩) (by decide)

end Microide.Workspace
