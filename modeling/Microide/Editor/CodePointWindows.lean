/-
Code points of a window.

The first bytes of a text are walked over the same code points as the text, but for the one they
cut, whose bytes are then code points of their own, each of one cell.

**Main results.** `utf8SequenceLength_take`: the length of a code point that is cut or whole;
`codePoints_take`: the code points of the first bytes.
-/

import Microide.Editor.VisualColumns

namespace Microide.Editor

open List Bool Text

/-- The continuation bytes a lead byte asks for. -/
def continuationsOwed (lead : UInt8) : Nat :=
  if 0xC2 ≤ lead && lead ≤ 0xDF then 1
  else if 0xE0 ≤ lead && lead ≤ 0xEF then 2
  else if 0xF0 ≤ lead && lead ≤ 0xF4 then 3
  else 0

/-- The bounds some lead bytes put on the second byte. -/
def secondFits (lead second : UInt8) : Bool :=
  if lead == 0xE0 then 0xA0 ≤ second && second ≤ 0xBF
  else if lead == 0xED then 0x80 ≤ second && second ≤ 0x9F
  else if lead == 0xF0 then 0x90 ≤ second && second ≤ 0xBF
  else if lead == 0xF4 then 0x80 ≤ second && second ≤ 0x8F
  else true

/-- Whether the bytes behind a lead byte begin with some continuation bytes. -/
def continues (rest : Line) (count : Nat) : Bool :=
  count ≤ rest.length && (rest.take count).all isUtf8ContinuationByte

theorem utf8SequenceLength_eq (lead : UInt8) (rest : Line) :
    utf8SequenceLength (lead :: rest) =
      if continues rest (continuationsOwed lead) && secondFits lead (rest.headD 0) then
        continuationsOwed lead + 1
      else 1 := by
  rw [utf8SequenceLength]
  have same : (fun count => decide (count ≤ rest.length) &&
      (rest.take count).all isUtf8ContinuationByte) = continues rest := rfl
  have none_ : continues rest 0 = true := rfl
  rw [same]
  generalize continues rest = continuation at none_
  unfold continuationsOwed secondFits
  simp only [UInt8.le_iff_toNat_le, ← UInt8.toNat_inj, beq_iff_eq, and_eq_true]
  grind

theorem continues_take (rest : Line) (m count : Nat) :
    continues (rest.take m) count = (decide (count ≤ m) && continues rest count) := by
  unfold continues
  by_cases le : count ≤ m
  · rw [length_take, take_take, min_eq_left le, decide_eq_true le, Bool.true_and]
    congr 1
    exact decide_eq_decide.mpr (by omega)
  · rw [decide_eq_false le, Bool.false_and, length_take, decide_eq_false (by omega),
      Bool.false_and]

/-- **A code point that is whole in a window keeps its length; one that is cut starts none.** -/
theorem utf8SequenceLength_take (lead : UInt8) (rest : Line) (m : Nat) :
    utf8SequenceLength (lead :: rest.take m) =
      if utf8SequenceLength (lead :: rest) ≤ m + 1 then utf8SequenceLength (lead :: rest) else 1 := by
  rw [utf8SequenceLength_eq, utf8SequenceLength_eq, continues_take]
  by_cases owes : continuationsOwed lead ≤ m
  · rw [decide_eq_true owes, Bool.true_and]
    by_cases none_ : continuationsOwed lead = 0
    · split_ifs <;> omega
    · have second : (rest.take m).headD 0 = rest.headD 0 := by
        cases rest with
        | nil => rw [take_nil]
        | cons c rest =>
          obtain ⟨m, rfl⟩ : ∃ more, m = more + 1 := ⟨m - 1, by omega⟩
          rfl
      rw [second]
      split_ifs <;> omega
  · rw [decide_eq_false owes, Bool.false_and, Bool.false_and, if_neg Bool.false_ne_true]
    split_ifs <;> omega

theorem isUtf8ContinuationByte_bounds {c : UInt8} (continues : isUtf8ContinuationByte c = true) :
    0x80 ≤ c ∧ c < 0xC2 := by
  have bounds : ∀ n < 256, n &&& 192 = 128 → 128 ≤ n ∧ n < 194 := by decide +kernel
  have same := congrArg UInt8.toNat (beq_iff_eq.mp continues)
  have := bounds c.toNat c.toNat_lt same
  exact ⟨UInt8.le_iff_toNat_le.mpr this.1, UInt8.lt_iff_toNat_lt.mpr this.2⟩

/-- Continuation bytes on their own are code points of a byte. -/
theorem codePoints_continuation {text : Line}
    (bytes : ∀ c ∈ text, isUtf8ContinuationByte c = true) :
    codePoints text = text.map fun c => [c] := by
  induction text with
  | nil => rfl
  | cons c text ih =>
    obtain ⟨first, bytes⟩ := forall_mem_cons.mp bytes
    have bounds := isUtf8ContinuationByte_bounds first
    have owed : continuationsOwed c = 0 := by
      unfold continuationsOwed
      simp only [UInt8.le_iff_toNat_le, UInt8.lt_iff_toNat_lt]
        at bounds ⊢
      grind
    have alone : utf8SequenceLength (c :: text) = 1 := by
      rw [utf8SequenceLength_eq, owed]
      split_ifs <;> rfl
    rw [codePoints_cons, alone, take_succ_cons, take_zero, drop_succ_cons,
      drop_zero, ih bytes, map_cons]

/-- The bytes of a code point behind the first are continuation bytes. -/
theorem codePoint_tail (lead : UInt8) (rest : Line) :
    ∀ c ∈ rest.take (utf8SequenceLength (lead :: rest) - 1), isUtf8ContinuationByte c = true := by
  rw [utf8SequenceLength_eq]
  split
  next whole =>
    rw [and_eq_true, continues, and_eq_true] at whole
    exact all_eq_true.mp whole.1.2
  · intro c mem
    exact absurd mem not_mem_nil

theorem codePoint_size {lead : UInt8} {tail rest : Line}
    (first : codePoints (lead :: (tail ++ rest)) = (lead :: tail) :: codePoints rest) :
    utf8SequenceLength (lead :: (tail ++ rest)) = tail.length + 1 := by
  have size := congrArg List.length (List.cons.inj first).1
  have bounds := utf8SequenceLength_bounds lead (tail ++ rest)
  rw [length_take, length_cons, length_cons] at size
  omega

/-- The bytes of a code point that is cut are code points of a byte. -/
theorem codePoints_cut {glyph rest : Line} (first : codePoints (glyph ++ rest) = glyph :: codePoints rest)
    {count : Nat} (cut : count < glyph.length) :
    codePoints (glyph.take count) = (glyph.take count).map (fun c => [c]) ∧
      ∀ c ∈ glyph.take count, 0x80 ≤ c := by
  obtain ⟨lead, tail, rfl⟩ := exists_cons_of_ne_nil (ne_nil_of_length_pos
    (Nat.lt_of_le_of_lt (Nat.zero_le _) cut))
  rw [cons_append] at first
  have size := codePoint_size first
  cases count with
  | zero => exact ⟨rfl, fun c mem => absurd mem not_mem_nil⟩
  | succ m =>
    rw [length_cons] at cut
    have front : tail.take m = (tail ++ rest).take m :=
      (take_append_of_le_length (by omega)).symm
    have alone : utf8SequenceLength (lead :: tail.take m) = 1 := by
      rw [front, utf8SequenceLength_take, size, if_neg (by omega)]
    have bytes := codePoint_tail lead (tail ++ rest)
    rw [size, Nat.add_sub_cancel, take_left] at bytes
    have high : 0x80 ≤ lead := by
      rw [← UInt8.not_lt]
      intro ascii
      rw [codePoints_ascii ascii] at first
      have short := congrArg List.length (List.cons.inj first).1
      rw [length_singleton, length_cons] at short
      omega
    constructor
    · rw [take_succ_cons, codePoints_cons, alone, take_succ_cons, take_zero,
        drop_succ_cons, drop_zero, map_cons,
        codePoints_continuation fun c mem => bytes c (mem_of_mem_take mem)]
    · refine forall_mem_cons.mpr ⟨high, fun c mem => ?_⟩
      exact (isUtf8ContinuationByte_bounds (bytes c (mem_of_mem_take mem))).1

/-- A code point that is whole in a window is one there. -/
theorem codePoints_whole {glyph rest : Line} (some_ : glyph ≠ [])
    (first : codePoints (glyph ++ rest) = glyph :: codePoints rest) (m : Nat) :
    codePoints (glyph ++ rest.take m) = glyph :: codePoints (rest.take m) := by
  obtain ⟨lead, tail, rfl⟩ := exists_cons_of_ne_nil some_
  rw [cons_append] at first ⊢
  have front : tail ++ rest.take m = (tail ++ rest).take (tail.length + m) :=
    (take_length_add_append m).symm
  have size : utf8SequenceLength (lead :: (tail ++ rest.take m)) = (lead :: tail).length := by
    rw [front, utf8SequenceLength_take, codePoint_size first, if_pos (by omega), length_cons]
  rw [codePoints_cons, size, ← cons_append, take_left, drop_left]

/-- A text and its first bytes, up to `limit`: the code points `whole` in them, the `rest` of the
text's, and the bytes that the limit cuts off the first of the rest. -/
structure Windowed (text : Line) (limit : Nat) (whole rest : List Line) (cut : Line) : Prop where
  parts : codePoints text = whole ++ rest
  window : codePoints (text.take limit) = whole ++ cut.map fun c => [c]
  high : ∀ c ∈ cut, 0x80 ≤ c
  next : ∀ glyph ∈ rest.head?, cut.length < glyph.length ∧ whole.flatten.length + cut.length = limit
  last : rest = [] → cut = []

/-- **The code points of the first bytes.** -/
theorem codePoints_take (text : Line) (limit : Nat) :
    ∃ whole rest cut, Windowed text limit whole rest cut := by
  induction text using walkInduction generalizing limit with
  | nil =>
    refine ⟨[], [], [], rfl, ?_, by simp, by simp, fun _ => rfl⟩
    rw [take_nil]
    rfl
  | step glyph rest first low high ih =>
    rcases Nat.lt_or_ge limit glyph.length with cut | fits
    · obtain ⟨window, bytes⟩ := codePoints_cut first cut
      refine ⟨[], codePoints (glyph ++ rest), glyph.take limit, rfl, ?_, bytes, ?_, ?_⟩
      · rw [take_append_of_le_length cut.le, window]
        rfl
      · intro other mem
        rw [first] at mem
        cases mem
        rw [length_take_of_le cut.le]
        exact ⟨cut, Nat.zero_add _⟩
      · rw [first]
        exact fun none_ => absurd none_ (cons_ne_nil _ _)
    · obtain ⟨m, rfl⟩ : ∃ m, limit = glyph.length + m := ⟨limit - glyph.length, by omega⟩
      obtain ⟨whole, behind, cut, parts, window, bytes, next, last⟩ := ih m
      have some_ : glyph ≠ [] := ne_nil_of_length_pos low
      refine ⟨glyph :: whole, behind, cut, by rw [first, parts]; rfl, ?_, bytes, ?_, last⟩
      · rw [take_length_add_append, codePoints_whole some_ first, window]
        rfl
      · intro other mem
        have := next other mem
        rw [flatten_cons, length_append]
        omega

/-- A byte from `0x80` on that stands alone takes a cell. -/
theorem advanceVisualColumnAt_alone {tabSize visualColumn : Nat} {c : UInt8} (high : 0x80 ≤ c) :
    advanceVisualColumnAt tabSize visualColumn [c] = visualColumn + 1 := by
  have notAscii : ¬c ≤ 0x7F := by
    exact Nat.not_le_of_lt high
  have bad : decodeUtf8Codepoint [c] = 0xFFFD := by
    have lead : utf8LeadLength c = 0 ∨ 1 < utf8LeadLength c := by
      unfold utf8LeadLength
      rw [if_neg notAscii]
      split_ifs <;> omega
    exact if_pos (lead.imp id id)
  have wide : gridCellWidth 0xFFFD = 1 := rfl
  rw [advanceVisualColumnAt, if_neg (UInt8.not_lt.mpr high), bad, wide]

end Microide.Editor
