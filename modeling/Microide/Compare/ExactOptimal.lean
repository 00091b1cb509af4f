/-
The exact diff is optimal.

The table of the exact aligner holds the scores of the remainders of the two sides. Where the
traceback leaves the diagonal, the better neighbour has the score of the cell, so the pairs it
keeps weigh what the first cell says, and no common subsequence weighs more.

**Main result.** `appendExactLineOps_optimal`.
-/

import Microide.Compare.Hunks

namespace Microide.Compare

open List Lib Text

/-- The lines the operations keep, left and right. -/
def equalPairs (ops : List DiffOp) : List (Line × Line) :=
  ops.filterMap fun op => if op.kind = .equal then some (op.text, op.rightText) else none

/-- Pairs of equal lines, in the order of both sides. -/
structure CommonSubsequence (options : CompareBuildOptions) (pairs : List (Line × Line))
    (leftLines rightLines : List Line) : Prop where
  left : (pairs.map Prod.fst).Sublist leftLines
  right : (pairs.map Prod.snd).Sublist rightLines
  equal : ∀ pair ∈ pairs, linesEqualForDiff pair.1 pair.2 options = true

section Weights

variable (options : CompareBuildOptions) (leftLines rightLines : List Line)

/-- What a match of a left line weighs: its own bytes, by how often its class occurs. -/
def lineWeight (line : Line) : Nat :=
  lineMatchWeight line (significantTokenBytes line)
    ((leftLines ++ rightLines).countP fun other => linesEqualForDiff line other options)

def pairsWeight (pairs : List (Line × Line)) : Nat :=
  (pairs.map fun pair => lineWeight options leftLines rightLines pair.1).sum

/-- The keys of both sides. -/
def interned : List Line := (assignIds options (assignIds options [] leftLines).2 rightLines).2

/-- The id of a line's class. -/
def classId (line : Line) : Nat :=
  (interned options leftLines rightLines).findIdx fun key => internEq options key line

end Weights

variable {options : CompareBuildOptions} {leftLines rightLines : List Line}

theorem interned_nodup : ((interned options leftLines rightLines).map (lineKey options)).Nodup :=
  assignIds_nodup (@assignIds_nodup options [] (by simp) leftLines) rightLines

variable {line : Line}

/-- An id that names a line is the id of its class. -/
theorem NamesKey.id_eq_classId {id : Nat}
    (names : NamesKey options (interned options leftLines rightLines) id line) :
    id = classId options leftLines rightLines line := by
  refine names.id_eq interned_nodup ?_
  obtain ⟨key, found, same⟩ := names
  have some_ : classId options leftLines rightLines line < (interned options leftLines rightLines).length :=
    findIdx_lt_length_of_exists
      ⟨key, mem_of_getElem? found, (internEq_iff options key line).mpr same⟩
  exact ⟨_, getElem?_eq_getElem some_, (internEq_iff options _ line).mp (@findIdx_getElem _ _ _ some_)⟩

theorem left_names (i : Nat) (line : Line) (at_ : leftLines[i]? = some line) :
    NamesKey options (interned options leftLines rightLines)
      ((exactTables options leftLines rightLines).leftIds.getD i 0) line :=
  ((assignIds_spec options [] leftLines).2.2 i line at_).mono
    (assignIds_spec options (assignIds options [] leftLines).2 rightLines).1

theorem right_names (i : Nat) (line : Line) (at_ : rightLines[i]? = some line) :
    NamesKey options (interned options leftLines rightLines)
      ((exactTables options leftLines rightLines).rightIds.getD i 0) line :=
  (assignIds_spec options (assignIds options [] leftLines).2 rightLines).2.2 i line at_

/-- A line of either side has the key of its class. -/
theorem classId_names (mem : line ∈ leftLines ++ rightLines) :
    NamesKey options (interned options leftLines rightLines)
      (classId options leftLines rightLines line) line := by
  rcases mem_append.mp mem with left | right
  · obtain ⟨i, at_⟩ := mem_iff_getElem?.mp left
    have names := @left_names options leftLines rightLines i line at_
    rwa [names.id_eq_classId] at names
  · obtain ⟨i, at_⟩ := mem_iff_getElem?.mp right
    have names := @right_names options leftLines rightLines i line at_
    rwa [names.id_eq_classId] at names

/-- Lines of one class are those equal for the diff. -/
theorem classId_eq_iff {left right : Line} (memLeft : left ∈ leftLines ++ rightLines)
    (memRight : right ∈ leftLines ++ rightLines) :
    classId options leftLines rightLines left = classId options leftLines rightLines right ↔
      linesEqualForDiff left right options = true := by
  constructor
  · intro same
    have names := @classId_names options _ _ _ memLeft
    rw [same] at names
    exact names.linesEqual (classId_names memRight)
  · intro equal
    have keys := (linesEqualForDiff_iff left right options).mp equal
    unfold classId
    congr 1
    funext key
    exact Bool.eq_iff_iff.mpr (by rw [internEq_iff, internEq_iff, keys])

theorem leftIds_eq : (exactTables options leftLines rightLines).leftIds =
    leftLines.map (classId options leftLines rightLines) := by
  refine ext_getElem (by rw [length_leftIds, length_map]) fun i within _ => ?_
  have inside : i < leftLines.length := by rwa [length_leftIds] at within
  have names := @left_names options leftLines rightLines i _ (getElem?_eq_getElem inside)
  rw [getElem_map, ← names.id_eq_classId]
  exact (getD_eq_getElem _ _ within).symm

theorem rightIds_eq : (exactTables options leftLines rightLines).rightIds =
    rightLines.map (classId options leftLines rightLines) := by
  refine ext_getElem (by rw [length_rightIds, length_map]) fun i within _ => ?_
  have inside : i < rightLines.length := by rwa [length_rightIds] at within
  have names := @right_names options leftLines rightLines i _ (getElem?_eq_getElem inside)
  rw [getElem_map, ← names.id_eq_classId]
  exact (getD_eq_getElem _ _ within).symm

/-- The occurrences the weights are made of. -/
theorem count_classId (mem : line ∈ leftLines) :
    ((exactTables options leftLines rightLines).leftIds ++
        (exactTables options leftLines rightLines).rightIds).count
          (classId options leftLines rightLines line) =
      (leftLines ++ rightLines).countP fun other => linesEqualForDiff line other options := by
  rw [leftIds_eq, rightIds_eq, ← map_append, List.count, countP_map]
  refine countP_congr fun other there => ?_
  have same := @classId_eq_iff options _ _ line other (mem_append_left _ mem) there
  rw [← same, Function.comp_apply, beq_iff_eq, eq_comm]

theorem leftMatchWeight_eq : (exactTables options leftLines rightLines).leftMatchWeight =
    leftLines.map (lineWeight options leftLines rightLines) := by
  have zipped : (exactTables options leftLines rightLines).leftMatchWeight =
      List.zipWith (fun line id => lineMatchWeight line (significantTokenBytes line)
        (((exactTables options leftLines rightLines).leftIds ++
          (exactTables options leftLines rightLines).rightIds).count id))
        leftLines (exactTables options leftLines rightLines).leftIds := rfl
  rw [zipped, leftIds_eq, zipWith_map_right, zipWith_self]
  refine map_congr_left fun line mem => ?_
  rw [← leftIds_eq, count_classId mem, lineWeight]

/-- The rows of the table, line by line. -/
def tableRow (options : CompareBuildOptions) (leftLines rightLines : List Line) (line : Line) :
    Nat × Nat :=
  (classId options leftLines rightLines line, lineWeight options leftLines rightLines line)

theorem tableRows_eq : tableRows options leftLines rightLines =
    leftLines.map (tableRow options leftLines rightLines) := by
  rw [tableRows, leftIds_eq, leftMatchWeight_eq, zip_map']
  rfl

/-- No common subsequence weighs more than the score of the two sides. -/
theorem pairsWeight_le {pairs : List (Line × Line)}
    (common : CommonSubsequence options pairs leftLines rightLines) :
    pairsWeight options leftLines rightLines pairs ≤
      score (leftLines.map (tableRow options leftLines rightLines))
        (rightLines.map (classId options leftLines rightLines)) := by
  have ids : pairs.map (fun pair => classId options leftLines rightLines pair.1) =
      pairs.map fun pair => classId options leftLines rightLines pair.2 := by
    refine map_congr_left fun pair mem => (classId_eq_iff ?_ ?_).mpr (common.equal pair mem)
    · exact mem_append_left _ (common.left.subset (mem_map_of_mem mem))
    · exact mem_append_right _ (common.right.subset (mem_map_of_mem mem))
  have matching : Matching (pairs.map fun pair => tableRow options leftLines rightLines pair.1)
      (leftLines.map (tableRow options leftLines rightLines))
      (rightLines.map (classId options leftLines rightLines)) := by
    constructor
    · have mapped := common.left.map (tableRow options leftLines rightLines)
      rwa [map_map] at mapped
    · have mapped := common.right.map (classId options leftLines rightLines)
      rw [map_map] at mapped ⊢
      exact ids ▸ mapped
  have bound := weight_le_score matching
  rwa [map_map] at bound

theorem equalPairs_eq_kept (ops : List DiffOp) : equalPairs ops = kept (ops.map DiffOp.edit) := by
  unfold equalPairs kept
  rw [filterMap_map]
  refine filterMap_congr fun op _ => ?_
  obtain ⟨kind, text, rightText⟩ := op
  cases kind <;> rfl

/-- What is deleted and inserted keeps nothing. -/
theorem equalPairs_rest (leftLines rightLines : List Line) (i e j f : Nat) :
    equalPairs (appendDeleteOps leftLines i e ++ appendInsertOps rightLines j f) = [] := by
  refine filterMap_eq_nil_iff.mpr fun op mem => ?_
  rcases mem_append.mp mem with deleted | inserted
  · obtain ⟨line, -, rfl⟩ := mem_map.mp deleted
    rfl
  · obtain ⟨line, -, rfl⟩ := mem_map.mp inserted
    rfl

/-- The score of what is left of the two sides from a cell on. -/
def cellScore (options : CompareBuildOptions) (leftLines rightLines : List Line) (i j : Nat) : Nat :=
  score ((leftLines.drop i).map (tableRow options leftLines rightLines))
    ((rightLines.drop j).map (classId options leftLines rightLines))

theorem at_eq_cellScore {i j : Nat} (hi : i ≤ leftLines.length) (hj : j ≤ rightLines.length) :
    (exactTables options leftLines rightLines).at i j = cellScore options leftLines rightLines i j := by
  rw [exactTables_at hi hj, tableRows_eq, rightIds_eq, cellScore, map_drop, map_drop]

/-- Where a side has ended there is nothing to match. -/
theorem cellScore_end {i j : Nat} (ended : leftLines.length ≤ i ∨ rightLines.length ≤ j) :
    cellScore options leftLines rightLines i j = 0 := by
  unfold cellScore
  rcases ended with left | right
  · rw [drop_eq_nil_of_le left, map_nil, score_nil_left]
  · rw [drop_eq_nil_of_le right, map_nil, score_nil_right]

/-- What the traceback takes for the weight of a match is the line's. -/
theorem leftMatchWeight_at {i : Nat} (at_ : leftLines[i]? = some line) :
    (exactTables options leftLines rightLines).leftMatchWeight.getD i 1 =
      lineWeight options leftLines rightLines line := by
  rw [leftMatchWeight_eq, getD_eq_getElem?_getD, getElem?_map, at_]
  rfl

theorem ids_at {i j : Nat} {left right : Line} (leftAt : leftLines[i]? = some left)
    (rightAt : rightLines[j]? = some right) :
    (exactTables options leftLines rightLines).leftIds.getD i 0 =
        classId options leftLines rightLines left ∧
      (exactTables options leftLines rightLines).rightIds.getD j 0 =
        classId options leftLines rightLines right := by
  rw [leftIds_eq, rightIds_eq, getD_eq_getElem?_getD, getD_eq_getElem?_getD,
    getElem?_map, getElem?_map, leftAt, rightAt]
  exact ⟨rfl, rfl⟩

/-- The recurrence of the table. -/
theorem cellScore_cons {i j : Nat} {left right : Line} (leftAt : leftLines[i]? = some left)
    (rightAt : rightLines[j]? = some right) : cellScore options leftLines rightLines i j =
      if classId options leftLines rightLines left = classId options leftLines rightLines right ∧
          lineWeight options leftLines rightLines left +
              cellScore options leftLines rightLines (i + 1) (j + 1) >
            max (cellScore options leftLines rightLines (i + 1) j)
              (cellScore options leftLines rightLines i (j + 1)) then
        lineWeight options leftLines rightLines left +
          cellScore options leftLines rightLines (i + 1) (j + 1)
      else
        max (cellScore options leftLines rightLines (i + 1) j)
          (cellScore options leftLines rightLines i (j + 1)) := by
  obtain ⟨hi, rfl⟩ := List.getElem?_eq_some_iff.mp leftAt
  obtain ⟨hj, rfl⟩ := List.getElem?_eq_some_iff.mp rightAt
  unfold cellScore
  rw [drop_eq_getElem_cons hi, drop_eq_getElem_cons hj, map_cons, map_cons, score]
  rfl

/-- The pairs the traceback keeps from a cell on weigh what the cell says. -/
theorem traceback_weight (fuel : Nat) :
    ∀ i j, leftLines.length - i + (rightLines.length - j) ≤ fuel →
    pairsWeight options leftLines rightLines
        (equalPairs (traceback (exactTables options leftLines rightLines) fuel i j)) =
      cellScore options leftLines rightLines i j := by
  have rest : ∀ i j, leftLines.length ≤ i ∨ rightLines.length ≤ j →
      pairsWeight options leftLines rightLines (equalPairs
        (appendDeleteOps leftLines i leftLines.length ++
          appendInsertOps rightLines j rightLines.length)) =
        cellScore options leftLines rightLines i j := fun i j ended => by
    rw [equalPairs_rest, cellScore_end ended]
    rfl
  induction fuel with
  | zero => exact fun i j done => rest i j (by omega)
  | succ fuel ih =>
    intro i j enough
    rw [traceback]
    split
    next left right leftAt rightAt =>
      replace leftAt : leftLines[i]? = some left := leftAt
      replace rightAt : rightLines[j]? = some right := rightAt
      have hi : i < leftLines.length := (List.getElem?_eq_some_iff.mp leftAt).1
      have hj : j < rightLines.length := (List.getElem?_eq_some_iff.mp rightAt).1
      have below : i + 1 ≤ leftLines.length := hi
      have beside : j + 1 ≤ rightLines.length := hj
      have cell := @cellScore_cons options leftLines rightLines i j left right leftAt rightAt
      have diagonal : (exactTables options leftLines rightLines).takesDiagonal i j = true ↔
          classId options leftLines rightLines left = classId options leftLines rightLines right ∧
          cellScore options leftLines rightLines (i + 1) j ≤
            lineWeight options leftLines rightLines left +
              cellScore options leftLines rightLines (i + 1) (j + 1) ∧
          cellScore options leftLines rightLines i (j + 1) ≤
            lineWeight options leftLines rightLines left +
              cellScore options leftLines rightLines (i + 1) (j + 1) ∧
          cellScore options leftLines rightLines i j =
            lineWeight options leftLines rightLines left +
              cellScore options leftLines rightLines (i + 1) (j + 1) := by
        unfold ExactTables.takesDiagonal
        rw [leftMatchWeight_at leftAt, (ids_at leftAt rightAt).1, (ids_at leftAt rightAt).2,
          at_eq_cellScore hi.le hj.le, at_eq_cellScore below hj.le, at_eq_cellScore hi.le beside,
          at_eq_cellScore below beside]
        simp
      split
      next taken =>
        obtain ⟨-, -, -, here⟩ := diagonal.mp taken
        rw [here, ← ih (i + 1) (j + 1) (by omega)]
        rfl
      next skipped =>
        -- off the diagonal the cell is the better of its neighbours
        have better : cellScore options leftLines rightLines i j =
            max (cellScore options leftLines rightLines (i + 1) j)
              (cellScore options leftLines rightLines i (j + 1)) := by
          rw [cell, if_neg]
          rintro ⟨same, more⟩
          exact skipped (diagonal.mpr ⟨same, by omega, by omega, by rw [cell, if_pos ⟨same, more⟩]⟩)
        rw [at_eq_cellScore below hj.le, at_eq_cellScore hi.le beside]
        split
        next deletes =>
          rw [better, max_eq_left deletes, ← ih (i + 1) j (by omega)]
          rfl
        next inserts =>
          rw [better, max_eq_right (by omega), ← ih i (j + 1) (by omega)]
          rfl
    next ended =>
      refine rest i j ?_
      by_contra! inside
      exact ended _ _ (getElem?_eq_getElem inside.1) (getElem?_eq_getElem inside.2)

theorem equalPairs_common (options : CompareBuildOptions) (leftLines rightLines : List Line) :
    CommonSubsequence options (equalPairs (appendExactLineOps options leftLines rightLines))
      leftLines rightLines := by
  obtain ⟨source, target, related⟩ := appendExactLineOps_aligns options leftLines rightLines
  obtain ⟨left, right⟩ := kept_sublist ((appendExactLineOps options leftLines rightLines).map DiffOp.edit)
  rw [source] at left
  rw [target] at right
  rw [equalPairs_eq_kept]
  exact ⟨left, right, fun pair mem => related _ _ (mem_kept.mp mem)⟩

/-- **The exact diff is optimal.** -/
theorem appendExactLineOps_optimal (options : CompareBuildOptions) (leftLines rightLines : List Line) :
    CommonSubsequence options (equalPairs (appendExactLineOps options leftLines rightLines))
        leftLines rightLines ∧
      ∀ pairs, CommonSubsequence options pairs leftLines rightLines →
        pairsWeight options leftLines rightLines pairs ≤
          pairsWeight options leftLines rightLines
            (equalPairs (appendExactLineOps options leftLines rightLines)) := by
  constructor
  · exact equalPairs_common options leftLines rightLines
  · intro pairs common
    have weight := @traceback_weight options leftLines rightLines _ 0 0 (Nat.le_refl _)
    exact (pairsWeight_le common).trans weight.ge

end Microide.Compare
