/-
Visual columns.

Every walk of the editor along a line goes from code point to code point: a tab takes it to the
next stop, any other code point takes the cells of the grid. A line is walked here as the list of
its code points; a byte offset of the walk is the length of the code points before it.

**Main results.** `flatten_codePoints`, `codePoints_of_append`: a line is its code points, and the
walk can start at any of them; `codePoints_append_ascii`: ASCII is walked byte by byte.
-/

import Microide.Text.CellWidth

namespace Microide.Editor

open List Bool Text

/-! ### Code points -/

/-- Where the walk steps, at most `rounds` times. -/
def codePointsFrom : Nat → Line → List Line
  | 0, _ => []
  | _ + 1, [] => []
  | rounds + 1, lead :: rest =>
    (lead :: rest).take (utf8SequenceLength (lead :: rest)) ::
      codePointsFrom rounds ((lead :: rest).drop (utf8SequenceLength (lead :: rest)))

/-- The code points of a line; a byte that starts none is one alone. -/
def codePoints (text : Line) : List Line := codePointsFrom text.length text

theorem utf8SequenceLength_bounds (lead : UInt8) (rest : Line) :
    1 ≤ utf8SequenceLength (lead :: rest) ∧
      utf8SequenceLength (lead :: rest) ≤ min 4 (rest.length + 1) := by
  rw [utf8SequenceLength]
  simp only [and_eq_true, decide_eq_true_eq]
  split_ifs <;> omega

variable {text : Line}

theorem codePointsFrom_congr {rounds more : Nat} (enough : text.length ≤ rounds)
    (enough' : text.length ≤ more) : codePointsFrom rounds text = codePointsFrom more text := by
  induction rounds generalizing more text with
  | zero =>
    rw [length_eq_zero_iff.mp (Nat.le_zero.mp enough)]
    cases more <;> rfl
  | succ rounds ih =>
    cases text with
    | nil => cases more <;> rfl
    | cons lead rest =>
      cases more with
      | zero => exact absurd enough' (Nat.not_succ_le_zero _)
      | succ more =>
        have bounds := utf8SequenceLength_bounds lead rest
        rw [length_cons] at enough enough'
        have shorter : ((lead :: rest).drop (utf8SequenceLength (lead :: rest))).length ≤
            rounds ⊓ more := by
          rw [length_drop, length_cons]
          omega
        rw [codePointsFrom, codePointsFrom, ih (shorter.trans inf_le_left)
          (shorter.trans inf_le_right)]

@[simp] theorem codePoints_nil : codePoints [] = [] := rfl

theorem codePoints_cons (lead : UInt8) (rest : Line) : codePoints (lead :: rest) =
    (lead :: rest).take (utf8SequenceLength (lead :: rest)) ::
      codePoints ((lead :: rest).drop (utf8SequenceLength (lead :: rest))) := by
  have bounds := utf8SequenceLength_bounds lead rest
  rw [codePoints, length_cons, codePointsFrom, codePoints]
  congr 1
  exact codePointsFrom_congr (by rw [length_drop, length_cons]; omega) le_rfl

/-- A line with bytes has a first code point, which is not empty. -/
theorem exists_codePoint (some_ : text ≠ []) :
    ∃ glyph rest, text = glyph ++ rest ∧ codePoints text = glyph :: codePoints rest ∧
      1 ≤ glyph.length ∧ glyph.length ≤ 4 := by
  obtain ⟨lead, rest, rfl⟩ := exists_cons_of_ne_nil some_
  have bounds := utf8SequenceLength_bounds lead rest
  refine ⟨_, _, (take_append_drop _ _).symm, codePoints_cons lead rest, ?_, ?_⟩
  all_goals
    rw [length_take, length_cons]
    omega

/-- An induction along the walk. -/
theorem walkInduction {motive : Line → Prop} (nil : motive [])
    (step : ∀ glyph rest, codePoints (glyph ++ rest) = glyph :: codePoints rest →
      1 ≤ glyph.length → glyph.length ≤ 4 → motive rest → motive (glyph ++ rest))
    (text : Line) : motive text := by
  induction size : text.length using Nat.strong_induction_on generalizing text with
  | _ n ih =>
    by_cases some_ : text = []
    · exact some_ ▸ nil
    · obtain ⟨glyph, rest, rfl, split, low, high⟩ := exists_codePoint some_
      refine step glyph rest split low high (ih rest.length ?_ rest rfl)
      rw [← size, length_append]
      omega

@[simp] theorem flatten_codePoints (text : Line) : (codePoints text).flatten = text := by
  induction text using walkInduction with
  | nil => rfl
  | step glyph rest split _ _ ih => rw [split, flatten_cons, ih]

theorem codePoint_length {glyph : Line} (mem : glyph ∈ codePoints text) :
    1 ≤ glyph.length ∧ glyph.length ≤ 4 := by
  induction text using walkInduction with
  | nil => exact absurd mem not_mem_nil
  | step first rest split low high ih =>
    rw [split] at mem
    rcases mem_cons.mp mem with rfl | mem
    · exact ⟨low, high⟩
    · exact ih mem

theorem codePoint_ne_nil {glyph : Line} (mem : glyph ∈ codePoints text) : glyph ≠ [] := by
  rintro rfl
  exact absurd (codePoint_length mem).1 (Nat.not_succ_le_zero 0)

/-- The walk can start over behind any code point. -/
theorem codePoints_of_append {before after : List Line} (cut : codePoints text = before ++ after) :
    codePoints (text.drop before.flatten.length) = after := by
  induction before generalizing text with
  | nil => exact cut
  | cons glyph before ih =>
    by_cases some_ : text = []
    · rw [some_] at cut
      exact absurd cut.symm (cons_ne_nil _ _)
    · obtain ⟨first, rest, rfl, split, -, -⟩ := exists_codePoint some_
      rw [split, cons_append] at cut
      obtain ⟨rfl, later⟩ := List.cons.inj cut
      rw [flatten_cons, length_append, ← drop_drop, drop_left]
      exact ih later

/-- A byte below `0x80` is a code point. -/
theorem codePoints_ascii {lead : UInt8} (ascii : lead < 0x80) (rest : Line) :
    codePoints (lead :: rest) = [lead] :: codePoints rest := by
  have alone : utf8SequenceLength (lead :: rest) = 1 := by
    have low : lead ≤ 0x7F := by
      exact Nat.le_of_lt_succ (UInt8.lt_iff_toNat_lt.mp ascii)
    exact if_pos low
  rw [codePoints_cons, alone]
  rfl

/-- ASCII is walked byte by byte. -/
theorem codePoints_append_ascii {front : Line} (ascii : ∀ c ∈ front, c < 0x80) (rest : Line) :
    codePoints (front ++ rest) = front.map (fun c => [c]) ++ codePoints rest := by
  induction front with
  | nil => rfl
  | cons c front ih =>
    obtain ⟨first, ascii⟩ := forall_mem_cons.mp ascii
    rw [cons_append, codePoints_ascii first, ih ascii, map_cons, cons_append]

/-! ### Steps -/

def tabByte : UInt8 := 0x09

def spaceByte : UInt8 := 0x20

/-- `AdvanceVisualColumn`. -/
def advanceVisualColumn (tabSize visualColumn : Nat) (character : UInt8) : Nat :=
  if character ≠ tabByte then visualColumn + 1
  else
    let safeTabSize := max 1 tabSize
    let remainder := visualColumn % safeTabSize
    visualColumn + if remainder = 0 then safeTabSize else safeTabSize - remainder

/-- `AdvanceVisualColumnAt`, at a code point. -/
def advanceVisualColumnAt (tabSize visualColumn : Nat) : Line → Nat
  | [] => visualColumn
  | lead :: rest =>
    if lead < 0x80 then advanceVisualColumn tabSize visualColumn lead
    else visualColumn + gridCellWidth (decodeUtf8Codepoint (lead :: rest))

/-- A mark: a code point without a cell of its own. -/
def isZeroWidth : Line → Bool
  | [] => true
  | lead :: rest => 0x80 ≤ lead && gridCellWidth (decodeUtf8Codepoint (lead :: rest)) == 0

/-- The walk over code points. -/
def walkFrom (tabSize visualColumn : Nat) (glyphs : List Line) : Nat :=
  glyphs.foldl (advanceVisualColumnAt tabSize) visualColumn

section Steps

variable {tabSize visualColumn : Nat} {glyph : Line}

theorem lt_advanceVisualColumn (tabSize visualColumn : Nat) (character : UInt8) :
    visualColumn < advanceVisualColumn tabSize visualColumn character := by
  unfold advanceVisualColumn
  dsimp only
  have stop := Nat.mod_lt visualColumn (show 0 < max 1 tabSize by omega)
  split_ifs <;> omega

theorem advanceVisualColumnAt_eq_iff :
    advanceVisualColumnAt tabSize visualColumn glyph = visualColumn ↔ isZeroWidth glyph = true := by
  cases glyph with
  | nil => exact ⟨fun _ => rfl, fun _ => rfl⟩
  | cons lead rest =>
    have high : (0x80 ≤ lead) ↔ ¬lead < 0x80 := by
      rw [UInt8.not_lt]
    rw [advanceVisualColumnAt, isZeroWidth, and_eq_true, decide_eq_true_eq, beq_iff_eq, high]
    split
    next low =>
      have := lt_advanceVisualColumn tabSize visualColumn lead
      constructor
      · intro same
        omega
      · exact fun both => absurd low both.1
    next notLow =>
      constructor
      · intro same
        exact ⟨notLow, by omega⟩
      · rintro ⟨-, none_⟩
        rw [none_, Nat.add_zero]

theorem le_advanceVisualColumnAt (tabSize visualColumn : Nat) (glyph : Line) :
    visualColumn ≤ advanceVisualColumnAt tabSize visualColumn glyph := by
  cases glyph with
  | nil => exact le_rfl
  | cons lead rest =>
    rw [advanceVisualColumnAt]
    split
    · exact (lt_advanceVisualColumn _ _ _).le
    · exact Nat.le_add_right _ _

/-- A code point that is no mark takes at least a cell. -/
theorem lt_advanceVisualColumnAt_iff :
    visualColumn < advanceVisualColumnAt tabSize visualColumn glyph ↔ isZeroWidth glyph = false := by
  rw [(le_advanceVisualColumnAt tabSize visualColumn glyph).lt_iff_ne, ne_comm, ne_eq,
    advanceVisualColumnAt_eq_iff, not_eq_true]

theorem walkFrom_cons (glyphs : List Line) : walkFrom tabSize visualColumn (glyph :: glyphs) =
    walkFrom tabSize (advanceVisualColumnAt tabSize visualColumn glyph) glyphs := rfl

theorem walkFrom_append (glyphs more : List Line) : walkFrom tabSize visualColumn (glyphs ++ more) =
    walkFrom tabSize (walkFrom tabSize visualColumn glyphs) more := foldl_append

theorem le_walkFrom (tabSize visualColumn : Nat) (glyphs : List Line) :
    visualColumn ≤ walkFrom tabSize visualColumn glyphs := by
  induction glyphs generalizing visualColumn with
  | nil => exact le_rfl
  | cons glyph glyphs ih => exact (le_advanceVisualColumnAt _ _ _).trans (ih _)

/-- A walk stays where it is over marks only. -/
theorem walkFrom_eq_iff {glyphs : List Line} : walkFrom tabSize visualColumn glyphs = visualColumn ↔
    ∀ glyph ∈ glyphs, isZeroWidth glyph = true := by
  induction glyphs with
  | nil => exact ⟨fun _ _ mem => absurd mem not_mem_nil, fun _ => rfl⟩
  | cons glyph glyphs ih =>
    rw [walkFrom_cons, forall_mem_cons, ← ih,
      ← @advanceVisualColumnAt_eq_iff tabSize visualColumn glyph]
    have first := le_advanceVisualColumnAt tabSize visualColumn glyph
    constructor
    · intro same
      have := le_walkFrom tabSize (advanceVisualColumnAt tabSize visualColumn glyph) glyphs
      have here : advanceVisualColumnAt tabSize visualColumn glyph = visualColumn := by omega
      exact ⟨here, by rwa [here] at same⟩
    · rintro ⟨here, rest⟩
      rwa [here]

end Steps

end Microide.Editor
