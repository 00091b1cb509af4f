/-
What is known about a line.

The width table keeps for each line its width and whether its bytes are plain, or tabs and then
plain, packed into one word.

**Main results.** `measureLineFacts_visualColumns`: the width is the walk's; `facts_packLineWidth`:
what the packed word gives back.
-/

import Microide.Editor.PlainPrefix

namespace Microide.Editor

open List Bool Text

/-- `LineLayoutFacts`. -/
structure LineLayoutFacts where
  visualColumns : Nat := 0
  plainAscii : Bool := false
  known : Bool := false
  tabIndented : Bool := false
  leadingTabs : Nat := 0

/-- `util::LeadingByteRun`. -/
def leadingByteRun (text : Line) (byte : UInt8) : Nat := (text.takeWhile (· == byte)).length

/-- `TextLayout::MeasureLineFacts`. -/
def measureLineFacts (line : Line) (tabSize : Nat) : LineLayoutFacts :=
  let leadingTabs := leadingByteRun line tabByte
  let plainPrefix := leadingTabs + firstNonPlainAsciiByte (line.drop leadingTabs)
  { visualColumns := walkFrom tabSize (leadingTabs * tabSize + (plainPrefix - leadingTabs))
      (codePoints (line.drop plainPrefix))
    plainAscii := leadingTabs == 0 && plainPrefix == line.length
    known := true
    tabIndented := decide (leadingTabs > 0) && plainPrefix == line.length
    leadingTabs := leadingTabs }

section Measure

variable {tabSize : Nat} {line : Line}

theorem walkFrom_plain {visualColumn : Nat} {front : Line}
    (plain : ∀ c ∈ front, isNonPlain c = false) :
    walkFrom tabSize visualColumn (front.map fun c => [c]) = visualColumn + front.length := by
  induction front generalizing visualColumn with
  | nil => rfl
  | cons c front ih =>
    obtain ⟨first, plain⟩ := forall_mem_cons.mp plain
    rw [map_cons, walkFrom_cons, advanceVisualColumnAt_plain first, ih plain, length_cons]
    omega

/-- From a tab stop, every tab takes the tab size. -/
theorem walkFrom_tabs (positive : 0 < tabSize) (stops count : Nat) :
    walkFrom tabSize (stops * tabSize) ((List.replicate count tabByte).map fun c => [c]) =
      (stops + count) * tabSize := by
  induction count generalizing stops with
  | zero => rfl
  | succ count ih =>
    have step : advanceVisualColumnAt tabSize (stops * tabSize) [tabByte] =
        (stops + 1) * tabSize := by
      have ascii : tabByte < 0x80 := by decide
      have stop : stops * tabSize % tabSize = 0 := Nat.mul_mod_left _ _
      rw [advanceVisualColumnAt, if_pos ascii, advanceVisualColumn, if_neg fun differ => differ rfl]
      dsimp only
      rw [max_eq_right (show 1 ≤ tabSize from positive), stop, if_pos rfl, Nat.succ_mul]
    rw [replicate_succ, map_cons, walkFrom_cons, step, ih]
    congr 1
    omega

/-- A line is its tabs, then its plain bytes, then the rest. -/
theorem line_parts (line : Line) :
    ∃ plain rest, line = List.replicate (leadingByteRun line tabByte) tabByte ++ (plain ++ rest) ∧
      (∀ c ∈ plain, isNonPlain c = false) ∧
      plain.length = firstNonPlainAsciiByte (line.drop (leadingByteRun line tabByte)) := by
  have front : line.takeWhile (· == tabByte) =
      List.replicate (leadingByteRun line tabByte) tabByte :=
    eq_replicate_of_mem fun c mem => by
      have tab : (c == tabByte) = true := @mem_takeWhile_imp _ (· == tabByte) line c mem
      exact beq_iff_eq.mp tab
  have cut : line.takeWhile (· == tabByte) ++ line.dropWhile (· == tabByte) = line :=
    takeWhile_append_dropWhile
  have behind : line.drop (leadingByteRun line tabByte) = line.dropWhile (· == tabByte) := by
    have dropped := @drop_left _ (line.takeWhile (· == tabByte)) (line.dropWhile (· == tabByte))
    rwa [cut] at dropped
  refine ⟨(line.drop (leadingByteRun line tabByte)).take
      (firstNonPlainAsciiByte (line.drop (leadingByteRun line tabByte))),
    (line.drop (leadingByteRun line tabByte)).drop
      (firstNonPlainAsciiByte (line.drop (leadingByteRun line tabByte))), ?_,
    plainTo_firstNonPlainAsciiByte _, length_take_of_le findIdx_le_length⟩
  rw [take_append_drop, ← front, behind, cut]

/-- **The measured width** is the walk's. -/
theorem measureLineFacts_visualColumns (positive : 0 < tabSize) (line : Line) :
    (measureLineFacts line tabSize).visualColumns = walkFrom tabSize 0 (codePoints line) := by
  obtain ⟨plain, rest, parts, plain_, size⟩ := line_parts line
  unfold measureLineFacts
  dsimp only
  rw [← size, Nat.add_sub_cancel_left]
  generalize leadingByteRun line tabByte = count at parts
  have ascii : ∀ c ∈ List.replicate count tabByte, c < 0x80 := fun c mem => by
    rw [eq_of_mem_replicate mem]
    decide
  have tabs := @walkFrom_tabs tabSize positive 0 count
  rw [Nat.zero_mul, Nat.zero_add] at tabs
  have behind : line.drop (count + plain.length) = rest := by
    rw [parts, ← append_assoc]
    exact drop_left' (by rw [length_append, length_replicate])
  rw [behind]
  conv_rhs => rw [parts]
  rw [codePoints_append_ascii ascii, walkFrom_append, tabs,
    codePoints_append_ascii fun c mem => (lt_of_plain (plain_ c mem)).1, walkFrom_append,
    walkFrom_plain plain_]

theorem measureLineFacts_plainAscii : (measureLineFacts line tabSize).plainAscii = true ↔
    PlainTo line line.length := by
  unfold measureLineFacts
  rw [and_eq_true, beq_iff_eq, beq_iff_eq]
  constructor
  · rintro ⟨none_, whole⟩
    rw [none_, drop_zero, Nat.zero_add] at whole
    rw [← whole]
    exact plainTo_firstNonPlainAsciiByte line
  · intro plain
    have none_ : leadingByteRun line tabByte = 0 := by
      cases line with
      | nil => rfl
      | cons c rest =>
        have first : isNonPlain c = false := plain c (by exact mem_cons_self)
        have notTab : ¬(c == tabByte) = true := by simpa using (lt_of_plain first).2
        exact congrArg List.length (@takeWhile_cons_of_neg _ (· == tabByte) c rest notTab)
    refine ⟨none_, ?_⟩
    rw [none_, drop_zero, Nat.zero_add]
    exact le_antisymm findIdx_le_length ((le_firstNonPlainAsciiByte_iff le_rfl).mpr plain)

/-- The bytes of a line measured as tabs and then plain. -/
theorem measureLineFacts_tabIndented (indented : (measureLineFacts line tabSize).tabIndented = true) :
    ∃ plain, line = List.replicate (measureLineFacts line tabSize).leadingTabs tabByte ++ plain ∧
      (∀ c ∈ plain, isNonPlain c = false) ∧ 0 < (measureLineFacts line tabSize).leadingTabs := by
  obtain ⟨plain, rest, parts, plain_, size⟩ := line_parts line
  unfold measureLineFacts at indented ⊢
  rw [and_eq_true, decide_eq_true_eq, beq_iff_eq, ← size] at indented
  have none_ : rest = [] := by
    have total := congrArg List.length parts
    rw [length_append, length_append, length_replicate] at total
    exact length_eq_zero_iff.mp (by omega)
  rw [none_, append_nil] at parts
  exact ⟨plain, parts, plain_, indented.1⟩

end Measure

/-! ### The packed word -/

def kPlainAsciiBit : Nat := 1 <<< 63

def kTabIndentedBit : Nat := 1 <<< 62

def kLeadingTabsShift : Nat := 48

def kLeadingTabsMax : Nat := 255

def kWidthMask : Nat := (1 <<< kLeadingTabsShift) - 1

/-- `PackedLineWidth`. -/
structure PackedLineWidth where
  packed : Nat := 0

/-- `PackedLineWidth::From`. -/
def packLineWidth (facts : LineLayoutFacts) : PackedLineWidth :=
  let packed := facts.visualColumns &&& kWidthMask
  ⟨if facts.plainAscii then packed ||| kPlainAsciiBit
    else if facts.tabIndented && decide (facts.leadingTabs ≤ kLeadingTabsMax) then
      packed ||| (kTabIndentedBit ||| (facts.leadingTabs <<< kLeadingTabsShift))
    else packed⟩

/-- `PackedLineWidth::visual_columns`. -/
def PackedLineWidth.visualColumns (width : PackedLineWidth) : Nat := width.packed &&& kWidthMask

/-- `PackedLineWidth::facts`. -/
def PackedLineWidth.facts (width : PackedLineWidth) : LineLayoutFacts :=
  let tabIndented := width.packed &&& kTabIndentedBit != 0
  { visualColumns := width.visualColumns
    plainAscii := width.packed &&& kPlainAsciiBit != 0
    known := true
    tabIndented := tabIndented
    leadingTabs :=
      if tabIndented then (width.packed >>> kLeadingTabsShift) &&& kLeadingTabsMax else 0 }

/-- What the table says of a line: a run of tabs that does not fit is not reported. -/
def LineLayoutFacts.reported (facts : LineLayoutFacts) : LineLayoutFacts :=
  if facts.tabIndented && decide (facts.leadingTabs ≤ kLeadingTabsMax) then facts
  else { facts with tabIndented := false, leadingTabs := 0 }

theorem and_kWidthMask (n : Nat) : n &&& kWidthMask = n % 2 ^ 48 :=
  Nat.and_two_pow_sub_one_eq_mod n 48

theorem and_two_pow_bne (n i : Nat) : (n &&& 2 ^ i != 0) = n.testBit i := by
  rw [Nat.and_two_pow]
  cases n.testBit i
  · rw [toNat_false, Nat.zero_mul]
    rfl
  · rw [toNat_true, Nat.one_mul]
    exact bne_iff_ne.mpr (Nat.two_pow_pos i).ne'

/-- A word is its width and what stands above it. -/
theorem facts_word {width high : Nat} (fits : width < 2 ^ 48) (clear : high % 2 ^ 48 = 0) :
    (PackedLineWidth.mk (width ||| high)).facts =
      { visualColumns := width
        plainAscii := high.testBit 63
        known := true
        tabIndented := high.testBit 62
        leadingTabs := if high.testBit 62 then (high >>> 48) &&& kLeadingTabsMax else 0 } := by
  have low (i : Nat) (le : 48 ≤ i) : width.testBit i = false :=
    Nat.testBit_lt_two_pow (fits.trans_le (Nat.pow_le_pow_right (by decide) le))
  have mask : (width ||| high) &&& kWidthMask = width := by
    rw [and_kWidthMask, Nat.or_mod_two_pow, clear, Nat.mod_eq_of_lt fits, Nat.or_zero]
  have above : (width ||| high) >>> kLeadingTabsShift = high >>> 48 := by
    rw [kLeadingTabsShift, Nat.shiftRight_or_distrib, Nat.shiftRight_eq_div_pow width,
      Nat.div_eq_of_lt fits, Nat.zero_or]
  have flag (i : Nat) (le : 48 ≤ i) : ((width ||| high) &&& 2 ^ i != 0) = high.testBit i := by
    rw [and_two_pow_bne, Nat.testBit_or, low i le, Bool.false_or]
  have plain : ((width ||| high) &&& kPlainAsciiBit != 0) = high.testBit 63 := flag 63 (by decide)
  have tabs : ((width ||| high) &&& kTabIndentedBit != 0) = high.testBit 62 := flag 62 (by decide)
  unfold PackedLineWidth.facts PackedLineWidth.visualColumns
  rw [mask, above, plain, tabs]

/-- **The packed word gives back** the width, the flags, and the tabs of a line of tabs and then
plain bytes that fit. -/
theorem facts_packLineWidth {facts : LineLayoutFacts} (fits : facts.visualColumns < 2 ^ 48) :
    (packLineWidth facts).facts =
      { visualColumns := facts.visualColumns
        plainAscii := facts.plainAscii
        known := true
        tabIndented := !facts.plainAscii && facts.reported.tabIndented
        leadingTabs := if facts.plainAscii then 0 else facts.reported.leadingTabs } := by
  have width : facts.visualColumns &&& kWidthMask = facts.visualColumns := by
    rw [and_kWidthMask, Nat.mod_eq_of_lt fits]
  unfold packLineWidth LineLayoutFacts.reported
  dsimp only
  rw [width]
  cases plain : facts.plainAscii with
  | true => exact (facts_word fits (by decide)).trans rfl
  | false =>
    rw [if_neg Bool.false_ne_true, if_neg Bool.false_ne_true]
    by_cases tabs : (facts.tabIndented && decide (facts.leadingTabs ≤ kLeadingTabsMax)) = true
    · rw [if_pos tabs, if_pos tabs]
      rw [and_eq_true, decide_eq_true_eq] at tabs
      have small : facts.leadingTabs < 2 ^ 8 := Nat.lt_succ_of_le tabs.2
      have shifted : facts.leadingTabs <<< kLeadingTabsShift = 2 ^ 48 * facts.leadingTabs := by
        rw [Nat.shiftLeft_eq, Nat.mul_comm]
        rfl
      have fits' : 2 ^ 48 * facts.leadingTabs < 2 ^ 62 := by omega
      have high : kTabIndentedBit ||| (facts.leadingTabs <<< kLeadingTabsShift) =
          2 ^ 62 + 2 ^ 48 * facts.leadingTabs := by
        rw [shifted]
        exact ((Nat.two_pow_add_eq_or_of_lt fits' 1).symm.trans (by rw [Nat.mul_one])).trans rfl
      have bit63 : (2 ^ 62 + 2 ^ 48 * facts.leadingTabs).testBit 63 = false :=
        Nat.testBit_lt_two_pow (by omega)
      have bit62 : (2 ^ 62 + 2 ^ 48 * facts.leadingTabs).testBit 62 = true := by
        rw [Nat.testBit_two_pow_add_eq, Nat.testBit_lt_two_pow fits', Bool.not_false]
      have count : (2 ^ 62 + 2 ^ 48 * facts.leadingTabs) >>> 48 &&& kLeadingTabsMax =
          facts.leadingTabs := by
        rw [Nat.shiftRight_eq_div_pow, show kLeadingTabsMax = 2 ^ 8 - 1 from rfl,
          Nat.and_two_pow_sub_one_eq_mod]
        omega
      rw [high, facts_word fits (by omega), bit63, bit62, if_pos rfl, count, tabs.1]
      rfl
    · rw [if_neg tabs, if_neg tabs]
      have word := @facts_word facts.visualColumns 0 fits rfl
      rw [Nat.or_zero] at word
      exact word.trans rfl

end Microide.Editor
