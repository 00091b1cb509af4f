/-
Separated sequences.

A text is a list of lines joined by a separator. Two views of it meet in every editor
buffer: the lines, and the positions of the separators. The first half counts and
locates separators, the second says which bytes a range of lines takes up, so that
replacing lines is splicing bytes.
-/

import Mathlib.Data.List.Basic
import Mathlib.Data.List.TakeWhile

namespace Microide.Lib

open List

variable {α : Type*} [DecidableEq α]

/-! ### Positions of the separator -/

/-- The positions of `sep`, in order. -/
def positions (sep : α) (xs : List α) : List Nat :=
  xs.findIdxs (· == sep)

/-- `std::lower_bound`: the first index whose element is not below `value`. -/
def lowerBound (xs : List Nat) (value : Nat) : Nat :=
  (xs.takeWhile (· < value)).length

section Positions

variable (sep : α)

theorem positions_append (xs ys : List α) :
    positions sep (xs ++ ys) = positions sep xs ++ (positions sep ys).map (· + xs.length) := by
  rw [positions, findIdxs_append, Nat.zero_add, @findIdxs_start _ ys]
  rfl

theorem length_positions (xs : List α) : (positions sep xs).length = xs.count sep := by
  rw [positions, length_findIdxs, List.count]

theorem lt_of_mem_positions {xs : List α} {i : Nat} (h : i ∈ positions sep xs) : i < xs.length := by
  have hlt := lt_add_of_mem_findIdxs i h
  omega

/-- Searching the positions counts the separators before. -/
theorem lowerBound_positions (xs : List α) (k : Nat) :
    lowerBound (positions sep xs) k = (xs.take k).count sep := by
  by_cases hk : k ≤ xs.length
  · have hsplit := positions_append sep (xs.take k) (xs.drop k)
    rw [take_append_drop, length_take, Nat.min_eq_left hk] at hsplit
    have hbelow : ∀ i ∈ positions sep (xs.take k), decide (i < k) = true := by
      intro i hi
      have hlt := lt_of_mem_positions sep hi
      rw [length_take] at hlt
      simp
      omega
    have hfrom : ((positions sep (xs.drop k)).map (· + k)).takeWhile (· < k) = [] := by
      cases positions sep (xs.drop k) <;> simp
    rw [lowerBound, hsplit, takeWhile_append_of_pos hbelow, hfrom, append_nil, length_positions]
  · have hall : ∀ i ∈ positions sep xs, decide (i < k) = true := by
      intro i hi
      have := lt_of_mem_positions sep hi
      simp
      omega
    rw [lowerBound, takeWhile_eq_self_iff.mpr hall, length_positions, take_of_length_le]
    omega

/-- The positions from `k` on are the positions of the rest. -/
theorem getElem?_positions_drop (xs : List α) {k : Nat} (hk : k ≤ xs.length) (i : Nat) :
    (positions sep xs)[(xs.take k).count sep + i]? =
      ((positions sep (xs.drop k))[i]?).map (· + k) := by
  have hsplit := positions_append sep (xs.take k) (xs.drop k)
  rw [take_append_drop, length_take, Nat.min_eq_left hk] at hsplit
  rw [hsplit, ← length_positions, getElem?_append_right (Nat.le_add_right _ _),
    Nat.add_sub_cancel_left, getElem?_map]

theorem getElem?_positions_append_left (xs ys : List α) {i : Nat} (hi : i < xs.count sep) :
    (positions sep (xs ++ ys))[i]? = (positions sep xs)[i]? := by
  rw [positions_append, getElem?_append_left (by rwa [length_positions])]

theorem getElem?_positions_append_right (xs ys : List α) {i : Nat} (hi : xs.count sep ≤ i) :
    (positions sep (xs ++ ys))[i]? =
      ((positions sep ys)[i - xs.count sep]?).map (· + xs.length) := by
  rw [positions_append, getElem?_append_right (by rwa [length_positions]), length_positions,
    getElem?_map]

end Positions

/-! ### Joined lines -/

/-- Lines with the separator after each. -/
def terminated (sep : α) (lines : List (List α)) : List α :=
  lines.flatMap (· ++ [sep])

/-- Lines with the separator before each. -/
def preceded (sep : α) (lines : List (List α)) : List α :=
  lines.flatMap (sep :: ·)

section Join

variable (sep : α)

omit [DecidableEq α] in
theorem join_cons (line : List α) (lines : List (List α)) :
    [sep].intercalate (line :: lines) = line ++ preceded sep lines := by
  induction lines generalizing line with
  | nil => simp [preceded]
  | cons next lines ih =>
      rw [intercalate_cons_cons, ih]
      simp [preceded]

omit [DecidableEq α] in
/-- A joined list, cut before and after some of its lines. -/
theorem join_cut (before after : List (List α)) {lines : List (List α)} (hne : lines ≠ []) :
    [sep].intercalate (before ++ lines ++ after) =
      terminated sep before ++ [sep].intercalate lines ++ preceded sep after := by
  induction before with
  | nil =>
      obtain ⟨line, rest, rfl⟩ := exists_cons_of_ne_nil hne
      simp [terminated, join_cons, preceded]
  | cons line before ih =>
      rw [cons_append, cons_append, intercalate_cons_of_ne_nil (by simp [hne]), ih]
      simp [terminated]

omit [DecidableEq α] in
theorem terminated_eq {lines : List (List α)} (hne : lines ≠ []) :
    terminated sep lines = [sep].intercalate lines ++ [sep] := by
  have hcut := join_cut sep lines [] (cons_ne_nil ([] : List α) [])
  have hcut' := join_cut sep [] [[]] hne
  simp only [append_nil, nil_append, terminated, preceded] at hcut hcut' ⊢
  simp only [flatMap_nil, nil_append, append_nil, intercalate_singleton, flatMap_cons] at hcut hcut'
  rw [← hcut, hcut']

omit [DecidableEq α] in
theorem preceded_eq {lines : List (List α)} (hne : lines ≠ []) :
    preceded sep lines = sep :: [sep].intercalate lines := by
  obtain ⟨line, rest, rfl⟩ := exists_cons_of_ne_nil hne
  rw [join_cons]
  simp [preceded]

theorem count_terminated {lines : List (List α)} (h : ∀ line ∈ lines, sep ∉ line) :
    (terminated sep lines).count sep = lines.length := by
  induction lines with
  | nil => rfl
  | cons line lines ih =>
      obtain ⟨hline, hrest⟩ := forall_mem_cons.mp h
      have hnext := ih hrest
      rw [terminated] at hnext ⊢
      rw [flatMap_cons, count_append, count_append, hnext,
        count_eq_zero.mpr hline, count_singleton_self, length_cons]
      omega

/-- There is a separator between each two lines. -/
theorem count_join {lines : List (List α)} (h : ∀ line ∈ lines, sep ∉ line) :
    ([sep].intercalate lines).count sep = lines.length - 1 := by
  rcases eq_nil_or_concat' lines with rfl | ⟨init, last, rfl⟩
  · rfl
  · have hcut := join_cut sep init [] (cons_ne_nil last [])
    rw [append_nil] at hcut
    rw [hcut, count_append, count_append,
      count_terminated sep fun line hline => h line (by simp [hline])]
    have hlast : last.count sep = 0 := count_eq_zero.mpr (h last (by simp))
    simp [preceded, hlast]

/-- The separator before line `i` ends the lines above it. -/
theorem getElem?_positions_join {lines : List (List α)} (h : ∀ line ∈ lines, sep ∉ line) {i : Nat}
    (hpos : 0 < i) (hi : i < lines.length) : (positions sep ([sep].intercalate lines))[i - 1]? =
      some ((terminated sep (lines.take i)).length - 1) := by
  have hrest : lines.drop i ≠ [] := by
    rw [ne_eq, drop_eq_nil_iff]
    omega
  have habove : lines.take i ≠ [] := ne_nil_of_length_pos (by rw [length_take]; omega)
  have hcut := join_cut sep (lines.take i) [] hrest
  rw [append_nil, take_append_drop] at hcut
  have hfree : ∀ line ∈ lines.take i, sep ∉ line := fun line hline => h line (mem_of_mem_take hline)
  have hcount : ([sep].intercalate (lines.take i)).count sep = i - 1 := by
    rw [count_join sep hfree, length_take, Nat.min_eq_left (Nat.le_of_lt hi)]
  rw [hcut, terminated_eq sep habove, append_assoc, append_assoc,
    getElem?_positions_append_right sep _ _ (Nat.le_of_eq hcount), hcount, Nat.sub_self, length_append,
    length_singleton, Nat.add_sub_cancel]
  simp [positions]

/-- No piece of a split has the separator. -/
theorem not_mem_of_mem_splitOn {text piece : List α} (h : piece ∈ text.splitOn sep) :
    sep ∉ piece := by
  induction text generalizing piece with
  | nil => simp_all
  | cons c text ih =>
      rw [splitOn_cons_eq_if_modifyHead] at h
      split at h
      · rcases mem_cons.mp h with rfl | h
        · simp
        · exact ih h
      · next hc =>
        obtain ⟨head, rest, heq⟩ := exists_cons_of_ne_nil (splitOn_ne_nil sep text)
        rw [heq] at h ih
        rcases mem_cons.mp h with rfl | h
        · have hhead : sep ∉ head := ih mem_cons_self
          have hne : sep ≠ c := fun h => hc (by simp [h])
          simp [hhead, hne]
        · exact ih (mem_cons_of_mem _ h)

/-- Splitting gives one line more than there are separators. -/
theorem length_splitOn (text : List α) : (text.splitOn sep).length = text.count sep + 1 := by
  have hcount := count_join sep fun line (hline : line ∈ text.splitOn sep) =>
    not_mem_of_mem_splitOn sep hline
  rw [intercalate_splitOn] at hcount
  have hpos := length_pos_of_ne_nil (splitOn_ne_nil sep text)
  omega

end Join

/-! ### Offsets -/

section Offsets

variable (sep : α) {lines : List (List α)} {i : Nat}

/-- The offset of line `i`. -/
def lineOffset (lines : List (List α)) (i : Nat) : Nat :=
  (terminated sep (lines.take i)).length

omit [DecidableEq α] in
theorem join_split (hi : i < lines.length) : [sep].intercalate lines =
      terminated sep (lines.take i) ++ [sep].intercalate (lines.drop i) := by
  have hrest : lines.drop i ≠ [] := by
    rw [ne_eq, drop_eq_nil_iff]
    omega
  have hcut := join_cut sep (lines.take i) [] hrest
  rw [append_nil, take_append_drop] at hcut
  rw [hcut]
  simp [preceded]

omit [DecidableEq α] in
theorem take_lineOffset (hi : i < lines.length) :
    ([sep].intercalate lines).take (lineOffset sep lines i) = terminated sep (lines.take i) := by
  rw [join_split sep hi, lineOffset, take_left]

omit [DecidableEq α] in
theorem drop_lineOffset (hi : i < lines.length) :
    ([sep].intercalate lines).drop (lineOffset sep lines i) = [sep].intercalate (lines.drop i) := by
  conv_lhs => rw [join_split sep hi]
  rw [lineOffset, drop_left]

omit [DecidableEq α] in
theorem lineOffset_succ (hi : i < lines.length) :
    lineOffset sep lines (i + 1) = lineOffset sep lines i + lines[i].length + 1 := by
  rw [lineOffset, lineOffset, take_succ_eq_append_getElem hi, terminated, terminated,
    flatMap_append, length_append]
  simp [Nat.add_assoc]

omit [DecidableEq α] in
theorem lineOffset_mono {j : Nat} (hij : i ≤ j) :
    lineOffset sep lines i ≤ lineOffset sep lines j := by
  have hsplit : lines.take j = lines.take i ++ (lines.take j).drop i := by
    conv_lhs => rw [← take_append_drop i (lines.take j), take_take, Nat.min_eq_left hij]
  rw [lineOffset, lineOffset, hsplit, terminated, terminated, flatMap_append, length_append]
  omega

omit [DecidableEq α] in
/-- A joined list, cut around line `i`. -/
theorem join_around (hi : i < lines.length) : [sep].intercalate lines =
      terminated sep (lines.take i) ++ lines[i] ++ preceded sep (lines.drop (i + 1)) := by
  have hcut := join_cut sep (lines.take i) (lines.drop (i + 1)) (cons_ne_nil lines[i] [])
  rw [append_assoc, singleton_append, getElem_cons_drop, take_append_drop] at hcut
  rw [hcut, intercalate_singleton]

omit [DecidableEq α] in
/-- The bytes up to a column of line `i`. -/
theorem take_column (hi : i < lines.length) {column : Nat} (hcolumn : column ≤ lines[i].length) :
    ([sep].intercalate lines).take (lineOffset sep lines i + column) =
      terminated sep (lines.take i) ++ lines[i].take column := by
  rw [join_around sep hi, lineOffset, append_assoc, take_length_add_append,
    take_append_of_le_length hcolumn]

omit [DecidableEq α] in
/-- The bytes from a column of line `i` on. -/
theorem drop_column (hi : i < lines.length) {column : Nat} (hcolumn : column ≤ lines[i].length) :
    ([sep].intercalate lines).drop (lineOffset sep lines i + column) =
      lines[i].drop column ++ preceded sep (lines.drop (i + 1)) := by
  conv_lhs => rw [join_around sep hi]
  rw [lineOffset, append_assoc, drop_length_add_append, drop_append_of_le_length hcolumn]

omit [DecidableEq α] in
theorem length_join (hi : i < lines.length) : ([sep].intercalate lines).length =
      lineOffset sep lines i + lines[i].length + (preceded sep (lines.drop (i + 1))).length := by
  conv_lhs => rw [join_around sep hi]
  rw [length_append, length_append, lineOffset]

end Offsets

end Microide.Lib
