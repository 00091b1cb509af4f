/-
Hunks are real changes.

A hunk of a comparison is a run of changed rows, and what it deletes is never what it
inserts. The exact aligner matches two equal lines whenever it stands before them, the
trim leaves two middles that start differently, and anchors keep the runs of different
gaps apart. Only the row of a phantom is a change without a line.

**Main result.** `buildCompareModel_hunks`: every hunk lies within the rows, and either
its two sides differ or it ends the comparison of two texts of which one lacks its final
newline.
-/

import Microide.Compare.CompareRows
import Microide.Lib.WeightedMatch

namespace Microide.Compare

open List Option Lib Text Or CompareRow RowSink

/-! ### The table is the score -/

theorem dpRow_eq (leftId weight : Nat) (rows : List (Nat × Nat)) (rightIds : List Nat) :
    dpRow leftId weight rightIds (rightIds.tails.map (score rows)) =
      rightIds.tails.map (score ((leftId, weight) :: rows)) := by
  induction rightIds with
  | nil => simp [dpRow]
  | cons rightId rightIds ih =>
      have hhead : ∀ f : List Nat → Nat, (rightIds.tails.map f).headD 0 = f rightIds := by
        intro f
        cases rightIds <;> simp
      rw [tails_cons, map_cons, map_cons, dpRow]
      simp only [tail_cons, headD_cons, ih, hhead]
      rw [score]

theorem dpTable_eq (rightIds : List Nat) (rows : List (Nat × Nat)) :
    dpTable rightIds rows = rows.tails.map fun rest => rightIds.tails.map (score rest) := by
  induction rows with
  | nil =>
      have hzero : rightIds.tails.map (score []) = List.replicate (rightIds.length + 1) 0 := by
        rw [eq_replicate_iff]
        simp
      rw [dpTable, ← hzero]
      rfl
  | cons row rows ih =>
      have hhead : (dpTable rightIds rows).headD [] = rightIds.tails.map (score rows) := by
        rw [ih]
        cases rows <;> simp
      rw [dpTable, hhead, dpRow_eq, ih]
      simp

/-! ### Equal lines have equal ids -/

theorem intern_nodup {options : CompareBuildOptions} {keys : List Line}
    (h : (keys.map (lineKey options)).Nodup) (line : Line) :
    ((intern options keys line).2.map (lineKey options)).Nodup := by
  simp only [intern]
  split
  · exact h
  · next hid =>
    have hfresh : ∀ key ∈ keys, lineKey options key ≠ lineKey options line := by
      intro key hkey heq
      exact hid (findIdx_lt_length_of_exists ⟨key, hkey, (internEq_iff options key line).mpr heq⟩)
    rw [map_append, nodup_append]
    refine ⟨h, by simp, ?_⟩
    intro image himage line' hline'
    obtain ⟨key, hkey, rfl⟩ := mem_map.mp himage
    obtain rfl : line' = lineKey options line := by simpa using hline'
    exact hfresh key hkey

theorem assignIds_nodup {options : CompareBuildOptions} {keys : List Line}
    (h : (keys.map (lineKey options)).Nodup) (lines : List Line) :
    ((assignIds options keys lines).2.map (lineKey options)).Nodup := by
  induction lines generalizing keys with
  | nil => exact h
  | cons line lines ih => exact ih (intern_nodup h line)

/-- Keys are interned once, so a line has one id. -/
theorem NamesKey.id_eq {options : CompareBuildOptions} {keys : List Line} {id id' : Nat}
    {line : Line} (hkeys : (keys.map (lineKey options)).Nodup) (h : NamesKey options keys id line)
    (h' : NamesKey options keys id' line) : id = id' := by
  obtain ⟨key, hkey, heq⟩ := h
  obtain ⟨key', hkey', heq'⟩ := h'
  have hid : id < (keys.map (lineKey options)).length := by
    simpa using (List.getElem?_eq_some_iff.mp hkey).1
  apply (getElem?_inj hid hkeys).mp
  rw [getElem?_map, getElem?_map, hkey, hkey', map_some, map_some, heq, heq']

section Exact

variable {options : CompareBuildOptions} {leftLines rightLines : List Line}

theorem exactTables_ids_eq {i j : Nat} {line : Line} (hleft : leftLines[i]? = some line)
    (hright : rightLines[j]? = some line) :
    (exactTables options leftLines rightLines).leftIds.getD i 0 =
      (exactTables options leftLines rightLines).rightIds.getD j 0 := by
  obtain ⟨-, -, hleftIds⟩ := assignIds_spec options [] leftLines
  obtain ⟨hgrow, -, hrightIds⟩ := assignIds_spec options (assignIds options [] leftLines).2 rightLines
  have hnodup := assignIds_nodup (@assignIds_nodup options [] (by simp) leftLines) rightLines
  exact ((hleftIds i line hleft).mono hgrow).id_eq hnodup (hrightIds j line hright)

/-- The rows of the table. -/
def tableRows (options : CompareBuildOptions) (leftLines rightLines : List Line) : List (Nat × Nat) :=
  (exactTables options leftLines rightLines).leftIds.zip
    (exactTables options leftLines rightLines).leftMatchWeight

theorem length_leftIds :
    (exactTables options leftLines rightLines).leftIds.length = leftLines.length :=
  (assignIds_spec options [] leftLines).2.1

theorem length_rightIds :
    (exactTables options leftLines rightLines).rightIds.length = rightLines.length :=
  (assignIds_spec options (assignIds options [] leftLines).2 rightLines).2.1

theorem length_leftMatchWeight :
    (exactTables options leftLines rightLines).leftMatchWeight.length = leftLines.length := by
  have hids : (assignIds options [] leftLines).1.length = leftLines.length :=
    (assignIds_spec options [] leftLines).2.1
  simp [exactTables, hids]

/-- A cell of the table. -/
theorem exactTables_at {i j : Nat} (hi : i ≤ leftLines.length) (hj : j ≤ rightLines.length) :
    (exactTables options leftLines rightLines).at i j =
      score ((tableRows options leftLines rightLines).drop i)
        ((exactTables options leftLines rightLines).rightIds.drop j) := by
  have hrows : (tableRows options leftLines rightLines).length = leftLines.length := by
    rw [tableRows, length_zip, length_leftIds, length_leftMatchWeight, Nat.min_self]
  have hcells : (exactTables options leftLines rightLines).rightIds.length = rightLines.length :=
    length_rightIds
  have hdp : (exactTables options leftLines rightLines).dp =
      dpTable (exactTables options leftLines rightLines).rightIds
        (tableRows options leftLines rightLines) := rfl
  rw [ExactTables.at, hdp, dpTable_eq]
  rw [getD_eq_getElem?_getD, getD_eq_getElem?_getD, getElem?_map,
    getElem?_eq_getElem (show i < _ by rw [length_tails]; omega), map_some,
    getD_some, getElem?_map,
    getElem?_eq_getElem (show j < _ by rw [length_tails]; omega), map_some,
    getD_some, getElem_tails, getElem_tails]

/-- Lines of one class weigh the same. -/
theorem tableRows_weight (hoptions : options.ignoreWhitespace = false) {x y : Nat × Nat}
    (hx : x ∈ tableRows options leftLines rightLines)
    (hy : y ∈ tableRows options leftLines rightLines) (heq : x.1 = y.1) : x.2 = y.2 := by
  obtain ⟨-, -, hnames⟩ := assignIds_spec options [] leftLines
  have hrow : ∀ z ∈ tableRows options leftLines rightLines, ∃ line,
      NamesKey options (assignIds options [] leftLines).2 z.1 line ∧
        z.2 = lineMatchWeight line (significantTokenBytes line)
          (((exactTables options leftLines rightLines).leftIds ++
            (exactTables options leftLines rightLines).rightIds).count z.1) := by
    intro z hz
    obtain ⟨i, hi⟩ := mem_iff_getElem?.mp hz
    rw [tableRows, getElem?_zip_eq_some] at hi
    obtain ⟨hid, hweight⟩ := hi
    have hid' : (assignIds options [] leftLines).1[i]? = some z.1 := hid
    change (List.zipWith _ leftLines (assignIds options [] leftLines).1)[i]? = some z.2 at hweight
    rw [getElem?_zipWith, hid'] at hweight
    cases hline : leftLines[i]? with
    | none => simp [hline] at hweight
    | some line =>
        rw [hline] at hweight
        have hname := hnames i line hline
        rw [getD_eq_getElem?_getD, hid', getD_some] at hname
        exact ⟨line, hname, (some_inj.mp hweight).symm⟩
  obtain ⟨line, hname, hweight⟩ := hrow x hx
  obtain ⟨line', hname', hweight'⟩ := hrow y hy
  have hsame := (linesEqualForDiff_iff _ _ _).mp ((heq ▸ hname).linesEqual hname')
  simp only [lineKey, hoptions, Bool.false_eq_true, if_false] at hsame
  rw [hweight, hweight', hsame, heq]

/-- **The exact aligner matches two equal lines whenever it stands before them.** -/
theorem takesDiagonal_of_eq (hoptions : options.ignoreWhitespace = false) {i j : Nat} {line : Line}
    (hleft : leftLines[i]? = some line) (hright : rightLines[j]? = some line) :
    (exactTables options leftLines rightLines).takesDiagonal i j = true := by
  have hi : i < leftLines.length := (List.getElem?_eq_some_iff.mp hleft).1
  have hj : j < rightLines.length := (List.getElem?_eq_some_iff.mp hright).1
  have hids := @exactTables_ids_eq options _ _ _ _ _ hleft hright
  have hrow : (tableRows options leftLines rightLines).drop i =
      ((exactTables options leftLines rightLines).leftIds.getD i 0,
        (exactTables options leftLines rightLines).leftMatchWeight.getD i 1) ::
        (tableRows options leftLines rightLines).drop (i + 1) := by
    rw [getD_eq_getElem _ _ (by rw [length_leftIds]; exact hi),
      getD_eq_getElem _ _ (by rw [length_leftMatchWeight]; exact hi),
      drop_eq_getElem_cons (by
        rw [tableRows, length_zip, length_leftIds, length_leftMatchWeight]; omega)]
    simp [tableRows]
  have hcolumn : (exactTables options leftLines rightLines).rightIds.drop j =
      (exactTables options leftLines rightLines).leftIds.getD i 0 ::
        (exactTables options leftLines rightLines).rightIds.drop (j + 1) := by
    rw [hids, getD_eq_getElem _ _ (by rw [length_rightIds]; exact hj)]
    exact drop_eq_getElem_cons _
  have hweight : ∀ x ∈ (tableRows options leftLines rightLines).drop (i + 1),
      x.1 = (exactTables options leftLines rightLines).leftIds.getD i 0 →
        x.2 = (exactTables options leftLines rightLines).leftMatchWeight.getD i 1 := by
    have hmem := mem_of_mem_drop (hrow ▸ mem_cons_self)
    exact fun x hx heq => tableRows_weight hoptions (mem_of_mem_drop hx) hmem heq
  simp only [ExactTables.takesDiagonal, exactTables_at hi.le hj.le, exactTables_at hi.le hj,
    exactTables_at hi hj.le, exactTables_at hi hj, hrow, hcolumn, ← hids]
  generalize (exactTables options leftLines rightLines).leftIds.getD i 0 = id at hweight ⊢
  generalize (exactTables options leftLines rightLines).leftMatchWeight.getD i 1 = weight at hweight ⊢
  generalize (tableRows options leftLines rightLines).drop (i + 1) = rows at hweight ⊢
  generalize (exactTables options leftLines rightLines).rightIds.drop (j + 1) = ids
  have hbelow := score_cons_right_le rows ids hweight
  have hbeside := score_cons_left_le (id, weight) rows ids
  have hhere := @score_cons_of_eq Nat _ (id, weight) rows ids hweight
  simp only [beq_self_eq_true, Bool.true_and, Bool.and_eq_true, decide_eq_true_eq, beq_iff_eq]
  exact ⟨hbelow, hbeside, hhere⟩

end Exact

/-! ### Runs apart -/

/-- A run of changed lines is a change: its sides do not start with the same line. -/
def Changes (deleted inserted : List Line) : Prop :=
  (deleted = [] ∧ inserted = []) ∨ deleted.head? ≠ inserted.head?

/-- Every run of changed operations is a change; `deleted` and `inserted` are what the
current run has collected. -/
def RunsChange (deleted inserted : List Line) : List DiffOp → Prop
  | [] => Changes deleted inserted
  | op :: ops =>
    match op.kind with
    | .equal => Changes deleted inserted ∧ RunsChange [] [] ops
    | .delete => RunsChange (deleted ++ [op.text]) inserted ops
    | .insert => RunsChange deleted (inserted ++ [op.text]) ops

theorem changes_nil : Changes [] [] := inl ⟨rfl, rfl⟩

/-- A matched pair ends a run. -/
theorem runsChange_append_equal (deleted inserted : List Line) (ops ops' : List DiffOp)
    (left right : Line) : RunsChange deleted inserted (ops ++ DiffOp.equal left right :: ops') ↔
      RunsChange deleted inserted ops ∧ RunsChange [] [] ops' := by
  induction ops generalizing deleted inserted with
  | nil => rfl
  | cons op ops ih =>
      rw [cons_append, RunsChange, RunsChange]
      cases op.kind <;> simp [ih, and_assoc]

theorem runsChange_coarse (deleted inserted xs ys : List Line) :
    RunsChange deleted inserted (xs.map DiffOp.delete ++ ys.map DiffOp.insert) ↔
      Changes (deleted ++ xs) (inserted ++ ys) := by
  induction xs generalizing deleted with
  | nil =>
      induction ys generalizing inserted with
      | nil => simp [RunsChange]
      | cons y ys ih =>
          have hnext := ih (inserted ++ [y])
          simpa [RunsChange, DiffOp.insert] using hnext
  | cons x xs ih =>
      have hnext := ih (deleted ++ [x])
      simpa [RunsChange, DiffOp.delete] using hnext

/-- Matched pairs before and after operations change no run. -/
theorem runsChange_trim (xs ys xs' ys' : List Line) {middle : List DiffOp}
    (h : RunsChange [] [] middle) :
    RunsChange [] [] (List.zipWith DiffOp.equal xs ys ++ middle ++ List.zipWith DiffOp.equal xs' ys') := by
  induction xs generalizing ys with
  | nil =>
      induction xs' generalizing ys' middle with
      | nil => simpa using h
      | cons x xs' ih =>
          cases ys' with
          | nil => simpa using h
          | cons y ys' =>
              have hrest : RunsChange [] [] (List.zipWith DiffOp.equal xs' ys') := by
                have hnil : RunsChange [] [] ([] : List DiffOp) := changes_nil
                simpa using ih ys' hnil
              simpa using (runsChange_append_equal [] [] middle _ x y).mpr ⟨h, hrest⟩
  | cons x xs ih =>
      cases ys with
      | nil => simpa using ih []
      | cons y ys =>
          have hnext := (runsChange_append_equal [] [] [] _ x y).mpr ⟨changes_nil, ih ys⟩
          simpa using hnext

/-- What is left when one side is used up. -/
theorem runsChange_rest {lefts rights deleted inserted : List Line}
    (hend : lefts = [] ∨ rights = [])
    (hrun : (deleted = [] ∧ inserted = []) ∨
      (deleted ++ lefts).head? ≠ (inserted ++ rights).head?) :
    RunsChange deleted inserted (lefts.map DiffOp.delete ++ rights.map DiffOp.insert) := by
  rw [runsChange_coarse]
  rcases hrun with ⟨rfl, rfl⟩ | hne
  · cases lefts with
    | nil =>
        cases rights with
        | nil => exact changes_nil
        | cons right rights => exact inr (by simp)
    | cons left lefts =>
        obtain rfl : rights = [] := hend.resolve_left (by simp)
        exact inr (by simp)
  · exact inr hne

/-- The traceback never starts a run before two equal lines: from its start on a run
keeps two different first lines. -/
theorem traceback_changes {t : ExactTables}
    (hdiagonal : ∀ (i j : Nat) line, t.leftLines[i]? = some line → t.rightLines[j]? = some line →
      t.takesDiagonal i j = true)
    (fuel i j : Nat) (deleted inserted : List Line)
    (hfuel : (t.leftLines.length - i) + (t.rightLines.length - j) ≤ fuel)
    (hrun : (deleted = [] ∧ inserted = []) ∨
      (deleted ++ t.leftLines.drop i).head? ≠ (inserted ++ t.rightLines.drop j).head?) :
    RunsChange deleted inserted (traceback t fuel i j) := by
  have hrest : ∀ (i j : Nat) (deleted inserted : List Line),
      (t.leftLines[i]? = none ∨ t.rightLines[j]? = none) →
      ((deleted = [] ∧ inserted = []) ∨
        (deleted ++ t.leftLines.drop i).head? ≠ (inserted ++ t.rightLines.drop j).head?) →
      RunsChange deleted inserted (appendDeleteOps t.leftLines i t.leftLines.length ++
        appendInsertOps t.rightLines j t.rightLines.length) := by
    intro i j deleted inserted hend hrun
    rw [appendDeleteOps, appendInsertOps, slice_to_end _ _ (Nat.le_refl _),
      slice_to_end _ _ (Nat.le_refl _)]
    exact runsChange_rest (by simpa using hend) hrun
  induction fuel generalizing i j deleted inserted with
  | zero => exact hrest i j _ _ (inl (by simp; omega)) hrun
  | succ fuel ih =>
      rw [traceback]
      split
      · next left right hleft hright =>
        obtain ⟨hi, hleft'⟩ := List.getElem?_eq_some_iff.mp hleft
        obtain ⟨hj, hright'⟩ := List.getElem?_eq_some_iff.mp hright
        have hdropLeft : t.leftLines.drop i = left :: t.leftLines.drop (i + 1) := by
          rw [← hleft']
          exact drop_eq_getElem_cons hi
        have hdropRight : t.rightLines.drop j = right :: t.rightLines.drop (j + 1) := by
          rw [← hright']
          exact drop_eq_getElem_cons hj
        split
        · refine ⟨?_, ih (i + 1) (j + 1) [] [] (by omega) (inl ⟨rfl, rfl⟩)⟩
          rcases hrun with hnil | hne
          · exact inl hnil
          · cases deleted with
            | nil =>
                cases inserted with
                | nil => exact changes_nil
                | cons r inserted => exact inr (by simp)
            | cons l deleted =>
                cases inserted with
                | nil => exact inr (by simp)
                | cons r inserted => exact inr (by simpa using hne)
        · next hoff =>
          have hstart : (deleted ++ t.leftLines.drop i).head? ≠
              (inserted ++ t.rightLines.drop j).head? := by
            rcases hrun with ⟨rfl, rfl⟩ | hne
            · rw [hdropLeft, hdropRight]
              intro heq
              obtain rfl : left = right := by simpa using heq
              exact hoff (hdiagonal i j left hleft hright)
            · exact hne
          split
          · refine ih (i + 1) j (deleted ++ [left]) inserted (by omega) (inr ?_)
            rwa [append_assoc, singleton_append, ← hdropLeft]
          · refine ih i (j + 1) deleted (inserted ++ [right]) (by omega) (inr ?_)
            rwa [append_assoc, singleton_append, ← hdropRight]
      · next hnone =>
        refine hrest i j _ _ ?_ hrun
        cases hl : t.leftLines[i]? with
        | none => exact inl rfl
        | some left =>
            cases hr : t.rightLines[j]? with
            | none => exact inr rfl
            | some right => exact absurd hr (hnone left right hl)

section Ops

variable {options : CompareBuildOptions}

/-- The trim leaves two middles that do not start with the same line. -/
theorem trim_changes (leftLines rightLines : List Line) (lb le rb re : Nat) {ends : Nat × Nat}
    (hends : ends = equalEnds (fun l r => linesEqualForDiff l r options)
      (slice leftLines lb le) (slice rightLines rb re)) :
    Changes (slice leftLines (lb + ends.1) (le - ends.2))
      (slice rightLines (rb + ends.1) (re - ends.2)) := by
  by_cases heq : (slice leftLines (lb + ends.1) (le - ends.2)).head? =
      (slice rightLines (rb + ends.1) (re - ends.2)).head?
  · cases hleft : slice leftLines (lb + ends.1) (le - ends.2) with
    | nil =>
        rw [hleft, head?_nil, eq_comm, head?_eq_none_iff] at heq
        exact inl ⟨rfl, heq⟩
    | cons line lefts =>
        have hwhole : ∀ (lines : List Line) (b e e' : Nat), e' ≤ e →
            (slice lines b e').head? = some line → (slice lines b e).head? = some line := by
          intro lines b e e' hle hhead
          rw [head?_eq_getElem?, getElem?_slice] at hhead ⊢
          split at hhead
          · rwa [if_pos (by omega)]
          · cases hhead
        rw [hleft, head?_cons, eq_comm] at heq
        have hl := hwhole leftLines (lb + ends.1) le _ (Nat.sub_le _ _) (by rw [hleft]; rfl)
        have hr := hwhole rightLines (rb + ends.1) re _ (Nat.sub_le _ _) heq
        rw [← drop_slice] at hl hr
        rw [hends] at hl hr
        have hdiffer := commonPrefix_stops (fun l r => linesEqualForDiff l r options)
          (slice leftLines lb le) (slice rightLines rb re) hl hr
        simp [linesEqualForDiff] at hdiffer
  · exact inr heq

/-- Anchors are matched pairs, so the runs of different gaps stay apart. -/
theorem anchoredSegments_changes {leftLines rightLines : List Line}
    {recur : Nat → Nat → Nat → Nat → List DiffOp} {leftSuffix rightSuffix : Nat}
    (hrecur : ∀ lb le rb re, RunsChange [] [] (recur lb le rb re)) (anchors : List (Nat × Nat))
    (segmentLeft segmentRight : Nat) :
    RunsChange [] [] (anchoredSegments recur leftLines rightLines leftSuffix rightSuffix anchors
      segmentLeft segmentRight) := by
  induction anchors generalizing segmentLeft segmentRight with
  | nil => exact hrecur _ _ _ _
  | cons anchor anchors ih =>
      exact (runsChange_append_equal [] [] _ _ _ _).mpr ⟨hrecur _ _ _ _, ih _ _⟩

variable (hoptions : options.ignoreWhitespace = false)

include hoptions

theorem appendExactLineOps_changes (leftLines rightLines : List Line) :
    RunsChange [] [] (appendExactLineOps options leftLines rightLines) :=
  traceback_changes (fun _ _ _ => takesDiagonal_of_eq hoptions) _ 0 0 [] []
    (Nat.le_refl _) (inl ⟨rfl, rfl⟩)

theorem appendAnchoredFallbackOps_changes (leftLines rightLines : List Line)
    (lb le rb re depth : Nat) :
    RunsChange [] [] (appendAnchoredFallbackOps options leftLines rightLines lb le rb re depth) := by
  rw [appendAnchoredFallbackOps]
  refine runsChange_trim _ _ _ _ ?_
  have htrim := @trim_changes options leftLines rightLines lb le rb re _ rfl
  generalize equalEnds (fun l r => linesEqualForDiff l r options)
    (slice leftLines lb le) (slice rightLines rb re) = ends at htrim ⊢
  have hcoarse : RunsChange [] [] (appendDeleteOps leftLines (lb + ends.1) (le - ends.2) ++
      appendInsertOps rightLines (rb + ends.1) (re - ends.2)) :=
    (runsChange_coarse [] [] _ _).mpr htrim
  split
  · exact changes_nil
  · split
    · next hempty => simpa [hempty, appendDeleteOps] using hcoarse
    · split
      · next hempty => simpa [hempty, appendInsertOps] using hcoarse
      · split
        · exact appendExactLineOps_changes hoptions _ _
        · split
          · exact hcoarse
          · next hdepth =>
            dsimp only
            split
            · exact hcoarse
            · apply anchoredSegments_changes
              intro lb' le' rb' re'
              exact appendAnchoredFallbackOps_changes leftLines rightLines lb' le' rb' re' (depth + 1)
termination_by kMaxAnchoredFallbackDepth - depth
decreasing_by omega

/-- **Every run of the differ is a change.** -/
theorem buildLineDiffOps_changes (leftLines rightLines : List Line) :
    RunsChange [] [] (buildLineDiffOps leftLines rightLines options) := by
  refine runsChange_trim _ _ _ _ ?_
  split
  · exact changes_nil
  · split
    · exact appendAnchoredFallbackOps_changes hoptions _ _ _ _ _ _ _
    · exact appendExactLineOps_changes hoptions _ _

end Ops

/-! ### The hunks of the sink -/

/-- The left and the right lines of a hunk's rows. -/
def hunkLefts (rows : List CompareRow) (hunk : CompareHunk) : List Line :=
  (slice rows hunk.startRow (hunk.endRow + 1)).filterMap CompareRow.left?

@[inherit_doc hunkLefts]
def hunkRights (rows : List CompareRow) (hunk : CompareHunk) : List Line :=
  (slice rows hunk.startRow (hunk.endRow + 1)).filterMap CompareRow.right?

/-- The row before `n` is unchanged, if there is one. -/
def UnchangedBefore (rows : List CompareRow) (n : Nat) : Prop :=
  ∀ row ∈ (rows.take n).getLast?, row.kind = .unchanged

theorem unchangedBefore_append {rows : List CompareRow} {n : Nat} (hn : n ≤ rows.length)
    (more : List CompareRow) : UnchangedBefore (rows ++ more) n ↔ UnchangedBefore rows n := by
  rw [UnchangedBefore, UnchangedBefore, take_append_of_le_length hn]

/-- Every hunk lies within the rows and follows an unchanged row, and its sides differ. A
row that ends the rows and no hunk is unchanged. -/
structure HunksChange (sink : RowSink) : Prop where
  within : ∀ hunk ∈ sink.hunks, hunk.startRow ≤ hunk.endRow ∧ hunk.endRow < sink.rows.length
  differ : ∀ hunk ∈ sink.hunks, hunkLefts sink.rows hunk ≠ hunkRights sink.rows hunk
  before : ∀ hunk ∈ sink.hunks, UnchangedBefore sink.rows hunk.startRow
  ended : UnchangedBefore sink.rows sink.rows.length ∨
    ∃ last, sink.hunks.getLast? = some last ∧ last.endRow + 1 = sink.rows.length

/-- More rows leave the hunks as they are. -/
theorem HunksChange.grow {sink sink' : RowSink} (h : HunksChange sink) {rows : List CompareRow}
    (hrows : sink'.rows = sink.rows ++ rows) (hhunks : sink'.hunks = sink.hunks)
    (hunchanged : ∀ row ∈ rows, row.kind = .unchanged) : HunksChange sink' := by
  have hwithin : ∀ hunk ∈ sink'.hunks, hunk.startRow ≤ hunk.endRow ∧
      hunk.endRow < sink.rows.length := fun hunk hmem => h.within hunk (hhunks ▸ hmem)
  refine ⟨?_, ?_, ?_, ?_⟩
  · intro hunk hmem
    rw [hrows, length_append]
    have := hwithin hunk hmem
    omega
  · intro hunk hmem
    rw [hrows, hunkLefts, hunkRights, slice_append_of_le _ _ (hwithin hunk hmem).2]
    exact h.differ hunk (hhunks ▸ hmem)
  · intro hunk hmem
    have := hwithin hunk hmem
    rw [hrows, unchangedBefore_append (by omega)]
    exact h.before hunk (hhunks ▸ hmem)
  · rw [hrows, hhunks]
    rcases eq_nil_or_concat' rows with rfl | ⟨init, row, rfl⟩
    · simpa using h.ended
    · refine inl fun row' hrow' => hunchanged row' ?_
      rw [take_length, ← append_assoc, getLast?_concat] at hrow'
      obtain rfl : row = row' := by simpa using hrow'
      simp

theorem pushEquals_grows (sink : RowSink) (pairs : List (Line × Line)) :
    ∃ rows, (sink.pushEquals pairs).rows = sink.rows ++ rows ∧
      (sink.pushEquals pairs).hunks = sink.hunks ∧ ∀ row ∈ rows, row.kind = .unchanged := by
  induction pairs generalizing sink with
  | nil => exact ⟨[], by simp [pushEquals], rfl, by simp⟩
  | cons pair pairs ih =>
      obtain ⟨rows, hrows, hhunks, hunchanged⟩ := ih (sink.pushEqual pair.1 pair.2)
      exact ⟨_ :: rows, hrows.trans (append_assoc _ [_] rows), hhunks,
        forall_mem_cons.mpr ⟨rfl, hunchanged⟩⟩

/-- The rows of an alignment carry the deleted lines on the left and the inserted lines on
the right. -/
theorem pushAligned_grows (hunk : Nat) (sink : RowSink) (kinds : List HunkAlignmentKind)
    (deleted inserted : List Line) (hdeleted : kinds.countP (· ≠ .insert) = deleted.length)
    (hinserted : kinds.countP (· ≠ .delete) = inserted.length) :
    ∃ rows, (pushAligned hunk sink kinds deleted inserted).rows = sink.rows ++ rows ∧
      (pushAligned hunk sink kinds deleted inserted).hunks = sink.hunks ∧
      rows.filterMap left? = deleted ∧ rows.filterMap right? = inserted := by
  induction kinds generalizing sink deleted inserted with
  | nil =>
      obtain rfl : deleted = [] := length_eq_zero_iff.mp (by simpa using hdeleted.symm)
      obtain rfl : inserted = [] := length_eq_zero_iff.mp (by simpa using hinserted.symm)
      exact ⟨[], by simp [pushAligned], rfl, rfl, rfl⟩
  | cons kind kinds ih =>
      cases kind with
      | pair =>
          cases deleted with
          | nil => simp at hdeleted
          | cons d deleted =>
              cases inserted with
              | nil => simp at hinserted
              | cons r inserted =>
                  obtain ⟨rows, hrows, hhunks, hleft, hright⟩ := ih _ deleted inserted
                    (by simpa using hdeleted) (by simpa using hinserted)
                  refine ⟨_ :: rows, hrows.trans (append_assoc _ [_] rows), hhunks, ?_, ?_⟩
                  · simp [left?, hleft]
                  · simp [right?, hright]
      | delete =>
          cases deleted with
          | nil => simp at hdeleted
          | cons d deleted =>
              obtain ⟨rows, hrows, hhunks, hleft, hright⟩ := ih _ deleted inserted
                (by simpa using hdeleted) (by simpa using hinserted)
              refine ⟨_ :: rows, hrows.trans (append_assoc _ [_] rows), hhunks, ?_, ?_⟩
              · simp [left?, hleft]
              · simp [right?, hright]
      | insert =>
          cases inserted with
          | nil => simp at hinserted
          | cons r inserted =>
              obtain ⟨rows, hrows, hhunks, hleft, hright⟩ := ih _ deleted inserted
                (by simpa using hdeleted) (by simpa using hinserted)
              refine ⟨_ :: rows, hrows.trans (append_assoc _ [_] rows), hhunks, ?_, ?_⟩
              · simp [left?, hleft]
              · simp [right?, hright]

section Sink

variable {K : Type} (A : Doubles K) {sink : RowSink}

theorem HunksChange.flushRun (h : HunksChange sink)
    (hended : UnchangedBefore sink.rows sink.rows.length) {deleted inserted : List Line}
    (hchanges : Changes deleted inserted) : HunksChange (flushRun A sink deleted inserted) := by
  unfold Compare.flushRun
  split
  · exact h
  · next hne =>
    obtain ⟨hdeleted, hinserted⟩ := alignHunkLines_counts A deleted inserted
    obtain ⟨rows, hrows, hhunks, hleft, hright⟩ := pushAligned_grows sink.hunks.length sink _
      deleted inserted hdeleted hinserted
    have hnot : ¬ (deleted = [] ∧ inserted = []) := by simpa using hne
    have hnonempty : 0 < rows.length := by
      rcases rows with _ | ⟨row, rows⟩
      · exact absurd ⟨hleft.symm, hright.symm⟩ hnot
      · simp
    have hslice : slice (sink.rows ++ rows) sink.rows.length
        ((sink.rows ++ rows).length - 1 + 1) = rows := by
      rw [length_append, slice_to_end _ _ (by rw [length_append]; omega), drop_left]
    refine ⟨?_, ?_, ?_, ?_⟩ <;> dsimp only <;> rw [hhunks, hrows]
    · rw [forall_mem_append, forall_mem_singleton, length_append]
      refine ⟨fun hunk hmem => ?_, by dsimp only; omega⟩
      have := h.within hunk hmem
      omega
    · rw [forall_mem_append, forall_mem_singleton]
      constructor
      · intro hunk hmem
        rw [hunkLefts, hunkRights, slice_append_of_le _ _ (h.within hunk hmem).2]
        exact h.differ hunk hmem
      · rw [hunkLefts, hunkRights, hslice, hleft, hright]
        rintro rfl
        rcases hchanges with hnil | hhead
        · exact hnot hnil
        · exact hhead rfl
    · rw [forall_mem_append, forall_mem_singleton]
      constructor
      · intro hunk hmem
        have := h.within hunk hmem
        rw [unchangedBefore_append (by omega)]
        exact h.before hunk hmem
      · rwa [unchangedBefore_append (Nat.le_refl _)]
    · refine inr ⟨_, getLast?_concat, ?_⟩
      dsimp only
      rw [length_append]
      omega

/-- A run is flushed where the rows end with an unchanged row: at the start, or after the
pair that ended the run before. -/
theorem HunksChange.rowsFromOps (h : HunksChange sink)
    (hended : UnchangedBefore sink.rows sink.rows.length) {ops : List DiffOp}
    {deleted inserted : List Line} (hops : RunsChange deleted inserted ops) :
    HunksChange (rowsFromOps A sink deleted inserted ops) := by
  induction ops generalizing sink deleted inserted with
  | nil => exact h.flushRun A hended hops
  | cons op ops ih =>
      obtain ⟨kind, text, rightText⟩ := op
      cases kind with
      | equal =>
          have hpushed := (h.flushRun A hended hops.1).grow
            (show (pushEqual _ text rightText).rows = _ from rfl) rfl (by simp)
          refine ih hpushed ?_ hops.2
          intro row hrow
          rw [take_length] at hrow
          simp only [pushEqual, getLast?_concat, mem_some_iff] at hrow
          rw [← hrow]
      | delete => exact ih h hended hops
      | insert => exact ih h hended hops

end Sink

/-- What the phantom's row makes of the hunks: the last one may grow by it, or it is a hunk
of its own. -/
theorem pushPhantom_hunks {sink : RowSink} (h : HunksChange sink) {leftPhantom rightPhantom : Bool}
    {hunk : CompareHunk} (hmem : hunk ∈ (pushPhantom sink leftPhantom rightPhantom).hunks) :
    (hunk.startRow ≤ hunk.endRow ∧
      hunk.endRow < (pushPhantom sink leftPhantom rightPhantom).rows.length) ∧
      UnchangedBefore (pushPhantom sink leftPhantom rightPhantom).rows hunk.startRow ∧
      ((hunkLefts (pushPhantom sink leftPhantom rightPhantom).rows hunk ≠
            hunkRights (pushPhantom sink leftPhantom rightPhantom).rows hunk ∧
          (hunk.endRow + 1 = (pushPhantom sink leftPhantom rightPhantom).rows.length →
            leftPhantom = false ∧ rightPhantom = false)) ∨
        (hunk.endRow + 1 = (pushPhantom sink leftPhantom rightPhantom).rows.length ∧
          leftPhantom ≠ rightPhantom)) := by
  -- A hunk from before the phantom's row.
  have hkept : ∀ rows, (leftPhantom = false ∧ rightPhantom = false) ∨ rows ≠ [] → ∀ hunk ∈ sink.hunks,
      (hunk.startRow ≤ hunk.endRow ∧ hunk.endRow < (sink.rows ++ rows).length) ∧
        UnchangedBefore (sink.rows ++ rows) hunk.startRow ∧
        hunkLefts (sink.rows ++ rows) hunk ≠ hunkRights (sink.rows ++ rows) hunk ∧
        (hunk.endRow + 1 = (sink.rows ++ rows).length → leftPhantom = false ∧ rightPhantom = false) := by
    intro rows hrows hunk hmem
    obtain ⟨hle, hlt⟩ := h.within hunk hmem
    rw [hunkLefts, hunkRights, slice_append_of_le _ _ hlt, length_append,
      unchangedBefore_append (by omega)]
    refine ⟨by omega, h.before hunk hmem, h.differ hunk hmem, fun hlast => ?_⟩
    rcases hrows with hnone | hrows
    · exact hnone
    · have := length_pos_iff.mpr hrows
      omega
  unfold pushPhantom at hmem ⊢
  split at hmem
  · next hboth =>
    rw [if_pos hboth]
    obtain ⟨hlt, hbefore, hne, hlast⟩ := hkept [_] (inr (cons_ne_nil _ _)) hunk hmem
    exact ⟨hlt, hbefore, inl ⟨hne, hlast⟩⟩
  · next hboth =>
    rw [if_neg hboth]
    split at hmem
    · next hone =>
      rw [if_pos hone]
      have hdiffer : leftPhantom ≠ rightPhantom := by
        rintro rfl
        cases leftPhantom <;> simp at hboth hone
      rcases hlast : sink.hunks.getLast? with _ | last
      · rw [hlast] at hmem
        obtain rfl := mem_singleton.mp hmem
        have hended := h.ended.resolve_right (by simp [hlast])
        exact ⟨⟨Nat.le_refl _, by simp⟩, (unchangedBefore_append (Nat.le_refl _) _).mpr hended,
          inr ⟨by simp, hdiffer⟩⟩
      · rw [hlast] at hmem
        dsimp only at hmem
        split at hmem
        · next hend =>
          rcases mem_append.mp hmem with hmem | hmem
          · obtain ⟨hlt, hbefore, hne, hwhole⟩ := hkept [_] (inr (cons_ne_nil _ _)) hunk
              (dropLast_subset _ hmem)
            exact ⟨hlt, hbefore, inl ⟨hne, hwhole⟩⟩
          · obtain rfl := mem_singleton.mp hmem
            have hmem := mem_of_getLast? hlast
            have hle := (h.within last hmem).1
            refine ⟨⟨by dsimp only; omega, by simp⟩, ?_, inr ⟨by simp, hdiffer⟩⟩
            exact (unchangedBefore_append (by dsimp only; omega) _).mpr (h.before last hmem)
        · next hend =>
          rcases mem_append.mp hmem with hmem | hmem
          · obtain ⟨hlt, hbefore, hne, hwhole⟩ := hkept [_] (inr (cons_ne_nil _ _)) hunk hmem
            exact ⟨hlt, hbefore, inl ⟨hne, hwhole⟩⟩
          · obtain rfl := mem_singleton.mp hmem
            have hended := h.ended.resolve_right (by
              rintro ⟨last', hlast', hend'⟩
              obtain rfl : last = last' := some_inj.mp (hlast.symm.trans hlast')
              exact hend hend')
            exact ⟨⟨Nat.le_refl _, by simp⟩, (unchangedBefore_append (Nat.le_refl _) _).mpr hended,
              inr ⟨by simp, hdiffer⟩⟩
    · next hone =>
      rw [if_neg hone]
      have hnone : leftPhantom = false ∧ rightPhantom = false := by
        simpa using hone
      obtain ⟨hlt, hbefore, hne, hlast⟩ := hkept [] (inl hnone) hunk hmem
      rw [append_nil] at hlt hbefore hne hlast
      exact ⟨hlt, hbefore, inl ⟨hne, hlast⟩⟩

/-- **Hunks are real changes.** A hunk lies within the rows and follows an unchanged row;
its sides differ, or it ends with the row of a phantom and one text lacks its final
newline. -/
theorem buildCompareModel_hunks {K : Type} (A : Doubles K) (left right : List UInt8)
    {options : CompareBuildOptions} (hoptions : options.ignoreWhitespace = false)
    {hunk : CompareHunk} (hmem : hunk ∈ (buildCompareModel A left right options).hunks) :
    (hunk.startRow ≤ hunk.endRow ∧
      hunk.endRow < (buildCompareModel A left right options).rows.length) ∧
      UnchangedBefore (buildCompareModel A left right options).rows hunk.startRow ∧
      ((hunkLefts (buildCompareModel A left right options).rows hunk ≠
            hunkRights (buildCompareModel A left right options).rows hunk ∧
          (hunk.endRow + 1 = (buildCompareModel A left right options).rows.length →
            finalNewlineMissing left = true ∧ finalNewlineMissing right = true)) ∨
        (hunk.endRow + 1 = (buildCompareModel A left right options).rows.length ∧
          finalNewlineMissing left ≠ finalNewlineMissing right)) := by
  have hpush : ∀ sink : RowSink, HunksChange sink → ∀ pairs, HunksChange (sink.pushEquals pairs) := by
    intro sink h pairs
    obtain ⟨rows, hrows, hhunks, hunchanged⟩ := pushEquals_grows sink pairs
    exact h.grow hrows hhunks hunchanged
  have hempty : HunksChange {} :=
    ⟨by simp, by simp, by simp, inl (by simp [UnchangedBefore])⟩
  have hstarted : ∀ pairs, UnchangedBefore (pushEquals {} pairs).rows
      (pushEquals {} pairs).rows.length := by
    intro pairs row hrow
    rw [take_length] at hrow
    exact pushEquals_unchanged {} pairs (by simp) row (mem_of_getLast? hrow)
  obtain ⟨ended, hended, hrows, hhunks⟩ : ∃ ended, HunksChange ended ∧
      (buildCompareModel A left right options).rows =
        (pushPhantom ended (!finalNewlineMissing left) (!finalNewlineMissing right)).rows ∧
      (buildCompareModel A left right options).hunks =
        (pushPhantom ended (!finalNewlineMissing left) (!finalNewlineMissing right)).hunks :=
    ⟨_, hpush _ ((hpush {} hempty _).rowsFromOps A (hstarted _)
      (buildLineDiffOps_changes hoptions _ _)) _, rfl, rfl⟩
  have hhunk := pushPhantom_hunks hended (hhunks ▸ hmem)
  rw [← hrows] at hhunk
  simpa using hhunk

end Microide.Compare
