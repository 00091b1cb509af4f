/-
The columns of a row with inlay hints.

A hint puts its cells before the glyph of its anchor, so a real column owns the cells of the
hints anchored there and its own glyph's. These runs follow one another, and the way back finds
the owner of a display column. A column is 64 bits; additions wrap.

**Main results.** `walk_owned`: where the last hint's cells end inside 64 bits, the walk ends at
the owner and subtracts no more than there is; `visualColumns_mapBack`: what a click then meets.
-/

import Mathlib.Algebra.Ring.Nat

namespace Microide.Editor

open List

structure InlayCellSpan where
  anchorVisualColumn : UInt64
  cellWidth : UInt64

namespace InlayRowDisplacement

/-- `util::SaturatingAdd`. -/
def saturatingAdd (a b : UInt64) : UInt64 :=
  if 0xFFFFFFFFFFFFFFFF - a < b then 0xFFFFFFFFFFFFFFFF else a + b

/-- The loop of `CellsInsertedBefore`. -/
def sumUpTo (visualColumn sum : UInt64) : List InlayCellSpan → UInt64
  | [] => sum
  | span :: spans =>
      if visualColumn < span.anchorVisualColumn then sum
      else sumUpTo visualColumn (saturatingAdd sum span.cellWidth) spans

def cellsInsertedBefore (spans : List InlayCellSpan) (visualColumn : UInt64) : UInt64 :=
  sumUpTo visualColumn 0 spans

/-- The loop of `VisualColumnForDisplayColumn`. -/
def walk (displayColumn v disp : UInt64) : List InlayCellSpan → UInt64
  | [] => v + (displayColumn - disp)
  | span :: spans =>
      let gap := span.anchorVisualColumn - v
      if displayColumn < disp + gap then v + (displayColumn - disp)
      else if displayColumn < disp + gap + span.cellWidth then span.anchorVisualColumn
      else walk displayColumn span.anchorVisualColumn (disp + gap + span.cellWidth) spans

def visualColumnForDisplayColumn (spans : List InlayCellSpan) (displayColumn : UInt64) : UInt64 :=
  walk displayColumn 0 0 spans

/-- Each subtraction the loop makes. -/
def SubtractionsFit (displayColumn v disp : UInt64) : List InlayCellSpan → Prop
  | [] => disp ≤ displayColumn
  | span :: spans =>
      let gap := span.anchorVisualColumn - v
      v ≤ span.anchorVisualColumn ∧
        if displayColumn < disp + gap then disp ≤ displayColumn
        else displayColumn < disp + gap + span.cellWidth ∨
          SubtractionsFit displayColumn span.anchorVisualColumn (disp + gap + span.cellWidth) spans

/-! ### Cells in unbounded numbers -/

def width (spans : List InlayCellSpan) : Nat := (spans.map (·.cellWidth.toNat)).sum

/-- The width of the hints at the anchors `p`. -/
def cells (p : UInt64 → Bool) (spans : List InlayCellSpan) : Nat :=
  width (spans.filter (p ·.anchorVisualColumn))

/-- The anchors ascend, from column `v` on, which has `shift` cells before it; the last hint's
cells end inside 64 bits. -/
structure Laid (v : UInt64) (shift : Nat) (spans : List InlayCellSpan) : Prop where
  sorted : spans.Pairwise (·.anchorVisualColumn ≤ ·.anchorVisualColumn)
  right : ∀ span ∈ spans, v ≤ span.anchorVisualColumn
  room : ∀ span ∈ spans, span.anchorVisualColumn.toNat + shift + width spans < 2 ^ 64

variable {v disp d c c' : UInt64} {shift x y : Nat} {span : InlayCellSpan}
  {spans before after : List InlayCellSpan}

theorem width_cons : width (span :: spans) = span.cellWidth.toNat + width spans := by
  simp [width]

theorem cells_cons (p : UInt64 → Bool) : cells p (span :: spans) =
    (if p span.anchorVisualColumn then span.cellWidth.toNat else 0) + cells p spans := by
  unfold cells
  rw [filter_cons]
  split <;> simp [width_cons]

theorem cells_none {p : UInt64 → Bool} (none : ∀ span ∈ spans, p span.anchorVisualColumn = false) :
    cells p spans = 0 := by
  rw [cells, filter_eq_nil_iff.mpr (by simpa using none)]
  rfl

theorem cells_mono {p q : UInt64 → Bool} (wider : ∀ a, p a → q a) : cells p spans ≤ cells q spans := by
  induction spans with
  | nil => exact Nat.le_refl _
  | cons span spans ih =>
    grind [cells_cons]

/-- No hint is anchored before a column at or before the first anchor. -/
theorem cells_first (sorted : (span :: spans).Pairwise (·.anchorVisualColumn ≤ ·.anchorVisualColumn))
    (first : c.toNat ≤ span.anchorVisualColumn.toNat) : cells (· < c) (span :: spans) = 0 :=
  cells_none (by
    have later := (pairwise_cons.mp sorted).1
    simp only [mem_cons, decide_eq_false_iff_not, UInt64.not_lt]
    rintro other (rfl | mem)
    · exact first
    · exact Nat.le_trans first (later other mem))

/-- A column's cells start after those of every column before it, so owners ascend. -/
theorem owner_le (low : c.toNat + cells (· < c) spans ≤ x)
    (high : y ≤ c'.toNat + cells (· ≤ c') spans) (order : x ≤ y) : c ≤ c' := by
  by_contra after
  rw [UInt64.not_le] at after
  have disjoint : cells (· ≤ c') spans ≤ cells (· < c) spans := cells_mono fun a le => by
    rw [decide_eq_true_eq] at le ⊢
    exact UInt64.lt_of_le_of_lt le after
  rw [UInt64.lt_iff_toNat_lt] at after
  omega

/-- The cells of a hint are among its anchor's. -/
theorem cells_of_hint
    (sorted : (before ++ span :: after).Pairwise (·.anchorVisualColumn ≤ ·.anchorVisualColumn)) :
    cells (· < span.anchorVisualColumn) (before ++ span :: after) ≤ width before ∧
      width before + span.cellWidth.toNat ≤
        cells (· ≤ span.anchorVisualColumn) (before ++ span :: after) := by
  induction before with
  | nil =>
    rw [nil_append, cells_first sorted (Nat.le_refl _), cells_cons, if_pos (by simp)]
    exact ⟨Nat.zero_le _, by simp [width]⟩
  | cons first before ih =>
    obtain ⟨low, high⟩ := ih sorted.of_cons
    have here := (pairwise_cons.mp sorted).1 span (by simp)
    simp only [cons_append, cells_cons, width_cons, decide_eq_true here, if_true]
    split <;> omega

/-! ### Both loops -/

/-- What the sum counts, where it does not saturate. -/
theorem toNat_sumUpTo (sorted : spans.Pairwise (·.anchorVisualColumn ≤ ·.anchorVisualColumn))
    {sum : UInt64} (fits : sum.toNat + width spans < 2 ^ 64) :
    (sumUpTo v sum spans).toNat = sum.toNat + cells (· ≤ v) spans := by
  induction spans generalizing sum with
  | nil => rfl
  | cons span spans ih =>
    rw [width_cons] at fits
    have next : (sum + span.cellWidth).toNat = sum.toNat + span.cellWidth.toNat := by
      rw [UInt64.toNat_add, Nat.mod_eq_of_lt]
      omega
    have exact : saturatingAdd sum span.cellWidth = sum + span.cellWidth := by
      have room : (0xFFFFFFFFFFFFFFFF - sum).toNat = 2 ^ 64 - 1 - sum.toNat :=
        UInt64.toNat_sub_of_le _ _ (UInt64.le_iff_toNat_le.mpr (Nat.le_pred_of_lt sum.toNat_lt))
      rw [saturatingAdd, if_neg]
      rw [UInt64.lt_iff_toNat_lt, room]
      omega
    unfold sumUpTo
    split
    next right =>
      have later := (pairwise_cons.mp sorted).1
      rw [cells_none (forall_mem_cons.mpr ⟨by simpa using right,
        fun other mem => by simpa using UInt64.lt_of_lt_of_le right (later other mem)⟩)]
      rfl
    next left =>
      rw [exact, ih sorted.of_cons (by omega), next, cells_cons, if_pos (by simpa using left)]
      omega

theorem toNat_glyph (place : disp.toNat = v.toNat + shift) (reached : disp ≤ d) :
    (v + (d - disp)).toNat = d.toNat - shift := by
  have small := d.toNat_lt
  have back := UInt64.toNat_sub_of_le _ _ reached
  rw [UInt64.le_iff_toNat_le] at reached
  rw [UInt64.toNat_add, back, Nat.mod_eq_of_lt] <;> omega

/-- From a column drawn at or before the display column. -/
theorem walk_owned (laid : Laid v shift spans) (place : disp.toNat = v.toNat + shift)
    (reached : disp ≤ d) :
    SubtractionsFit d v disp spans ∧ v ≤ walk d v disp spans ∧
      (walk d v disp spans).toNat + shift + cells (· < walk d v disp spans) spans ≤ d.toNat ∧
      d.toNat ≤ (walk d v disp spans).toNat + shift + cells (· ≤ walk d v disp spans) spans := by
  induction spans generalizing v disp shift with
  | nil =>
    have glyph := toNat_glyph place reached
    rw [UInt64.le_iff_toNat_le] at reached
    simp only [walk, SubtractionsFit, UInt64.le_iff_toNat_le, cells, filter_nil, width,
      map_nil, sum_nil]
    omega
  | cons span spans ih =>
    have right := laid.right span mem_cons_self
    have room := laid.room span mem_cons_self
    have gap := UInt64.toNat_sub_of_le _ _ right
    have ahead := UInt64.le_iff_toNat_le.mp right
    rw [width_cons] at room
    have atAnchor : (disp + (span.anchorVisualColumn - v)).toNat =
        span.anchorVisualColumn.toNat + shift := by
      rw [UInt64.toNat_add, gap, Nat.mod_eq_of_lt] <;> omega
    have past : (disp + (span.anchorVisualColumn - v) + span.cellWidth).toNat =
        span.anchorVisualColumn.toNat + (shift + span.cellWidth.toNat) := by
      rw [UInt64.toNat_add, atAnchor, Nat.mod_eq_of_lt] <;> omega
    unfold walk SubtractionsFit
    dsimp only
    split
    next glyphs =>
      have glyph := toNat_glyph place reached
      have start := UInt64.le_iff_toNat_le.mp reached
      rw [UInt64.lt_iff_toNat_lt, atAnchor] at glyphs
      rw [cells_first laid.sorted (by omega)]
      refine ⟨⟨right, reached⟩, UInt64.le_iff_toNat_le.mpr ?_, ?_, ?_⟩ <;>
        rw [glyph] <;> omega
    next beyond =>
      rw [UInt64.lt_iff_toNat_lt, atAnchor] at beyond
      split
      next inside =>
        have cellsBefore := UInt64.lt_iff_toNat_lt.mp inside
        rw [cells_first laid.sorted (Nat.le_refl _), cells_cons, if_pos (by simp)]
        exact ⟨⟨right, .inl inside⟩, right, by omega⟩
      next outside =>
        have tail : Laid span.anchorVisualColumn (shift + span.cellWidth.toNat) spans :=
          ⟨laid.sorted.of_cons, (pairwise_cons.mp laid.sorted).1, fun other mem => by
            have := laid.room other (mem_cons_of_mem _ mem)
            rw [width_cons] at this
            omega⟩
        obtain ⟨fit, onward, low, high⟩ := ih tail past (UInt64.not_lt.mp outside)
        refine ⟨⟨right, .inr fit⟩, UInt64.le_trans right onward, ?_, ?_⟩ <;> rw [cells_cons]
        · split <;> omega
        · rw [if_pos (by simpa using onward)]
          omega

/-- A real column drawn past the hints up to it comes back, the way back is monotone, a hint's
cells go to its anchor, and no subtraction underflows. -/
theorem visualColumns_mapBack
    (sorted : spans.Pairwise (·.anchorVisualColumn ≤ ·.anchorVisualColumn))
    (bounded : ∀ span ∈ spans, span.anchorVisualColumn.toNat + width spans < 2 ^ 64) :
    (∀ v, v.toNat + (cellsInsertedBefore spans v).toNat < 2 ^ 64 →
      visualColumnForDisplayColumn spans (v + cellsInsertedBefore spans v) = v) ∧
    (∀ d d', d ≤ d' →
      visualColumnForDisplayColumn spans d ≤ visualColumnForDisplayColumn spans d') ∧
    (∀ before span after d, spans = before ++ span :: after →
      span.anchorVisualColumn.toNat + width before ≤ d.toNat →
      d.toNat < span.anchorVisualColumn.toNat + width before + span.cellWidth.toNat →
      visualColumnForDisplayColumn spans d = span.anchorVisualColumn) ∧
    ∀ d, SubtractionsFit d 0 0 spans := by
  have laid : Laid 0 0 spans := ⟨sorted, fun _ _ => UInt64.zero_le, bounded⟩
  have owned d := walk_owned (d := d) laid rfl UInt64.zero_le
  refine ⟨fun v fits => ?_, fun d d' order => ?_, ?_, fun d => (owned d).1⟩
  · have total : width spans < 2 ^ 64 := by
      cases spans with
      | nil => decide
      | cons span spans => exact Nat.lt_of_le_of_lt (Nat.le_add_left _ _) (bounded span mem_cons_self)
    have counted : (cellsInsertedBefore spans v).toNat = 0 + cells (· ≤ v) spans :=
      toNat_sumUpTo sorted (by rwa [UInt64.toNat_zero, Nat.zero_add])
    obtain ⟨-, -, low, high⟩ := owned (v + cellsInsertedBefore spans v)
    have start : cells (· < v) spans ≤ cells (· ≤ v) spans := cells_mono fun a lt => by
      rw [decide_eq_true_eq] at lt ⊢
      exact UInt64.le_of_lt lt
    rw [UInt64.toNat_add, Nat.mod_eq_of_lt fits, counted, Nat.zero_add] at low high
    exact UInt64.le_antisymm (owner_le low (Nat.le_refl _) (Nat.le_refl _))
      (owner_le (Nat.add_le_add_left start _) high (Nat.le_refl _))
  · exact owner_le (owned d).2.2.1 (owned d').2.2.2 (UInt64.le_iff_toNat_le.mp order)
  · rintro before span after d rfl inside within
    obtain ⟨-, -, low, high⟩ := owned d
    obtain ⟨start, stop⟩ := cells_of_hint sorted
    have starts : span.anchorVisualColumn.toNat +
        cells (· < span.anchorVisualColumn) (before ++ span :: after) ≤ d.toNat := by omega
    have stops : d.toNat ≤ span.anchorVisualColumn.toNat +
        cells (· ≤ span.anchorVisualColumn) (before ++ span :: after) := by omega
    exact UInt64.le_antisymm (owner_le low stops (Nat.le_refl _))
      (owner_le starts high (Nat.le_refl _))

/-- The second of two hints at one anchor. -/
theorem click_in_second_hint : visualColumnForDisplayColumn [⟨3, 2⟩, ⟨3, 4⟩, ⟨7, 1⟩] 6 = 3 :=
  (visualColumns_mapBack (by decide) (by decide)).2.2.1 [⟨3, 2⟩] ⟨3, 4⟩ [⟨7, 1⟩] 6 rfl (by decide)
    (by decide)

/-- Past 64 bits neither the walk nor the sum of a column and its cells is exact. -/
theorem click_wraps :
    let spans : List InlayCellSpan := [⟨0, 10⟩, ⟨0xFFFFFFFFFFFFFFFB, 3⟩]
    (spans.Pairwise (·.anchorVisualColumn ≤ ·.anchorVisualColumn) ∧ width spans < 2 ^ 64 ∧
      visualColumnForDisplayColumn spans (2 + cellsInsertedBefore spans 2) ≠ 2) ∧
    visualColumnForDisplayColumn [⟨0, 1⟩] (0xFFFFFFFFFFFFFFFF +
      cellsInsertedBefore [⟨0, 1⟩] 0xFFFFFFFFFFFFFFFF) ≠ 0xFFFFFFFFFFFFFFFF := by
  decide

end InlayRowDisplacement

end Microide.Editor
