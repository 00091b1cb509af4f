/-
Soundness of the line differ.

Every route of `Microide.Compare.LineDiff` is shown to produce an alignment of the two
ranges it was handed, in the sense of `Microide.Lib.Aligns`; the whole differ is the
concatenation of its routes at their seams.

**Order of the file.** The runs of equal, deleted and inserted lines; the interning, by
which equal ids mean equal lines; the traceback; the anchors, which are lines equal on
both sides and increase on both sides; the anchored recursion; the whole differ. The
weights and the table decide *which* alignment the exact route finds and play no part
here.
-/

import Microide.Compare.LineDiff

namespace Microide.Compare

open List Bool Lib Text

/-- The operations run through `ls` and `rs` in order and pair only lines the options
make equal. -/
def AlignsLines (options : CompareBuildOptions) (ops : List DiffOp) (ls rs : List Line) : Prop :=
  Aligns (fun l r => linesEqualForDiff l r options = true) (ops.map DiffOp.edit) ls rs

theorem AlignsLines.append {options : CompareBuildOptions} {ops ops' : List DiffOp}
    {ls ls' rs rs' : List Line} (h : AlignsLines options ops ls rs)
    (h' : AlignsLines options ops' ls' rs') :
    AlignsLines options (ops ++ ops') (ls ++ ls') (rs ++ rs') := by
  rw [AlignsLines, map_append]
  exact Aligns.append h h'

section Runs

variable (options : CompareBuildOptions) (leftLines rightLines : List Line)

theorem appendDeleteOps_aligns (b e : Nat) :
    AlignsLines options (appendDeleteOps leftLines b e) (slice leftLines b e) [] := by
  rw [AlignsLines, appendDeleteOps, map_map]
  exact Aligns.drops _

theorem appendInsertOps_aligns (b e : Nat) :
    AlignsLines options (appendInsertOps rightLines b e) [] (slice rightLines b e) := by
  rw [AlignsLines, appendInsertOps, map_map]
  exact Aligns.adds _

/-- Deleting one range and inserting another aligns the two. -/
theorem coarse_aligns (lb le rb re : Nat) :
    AlignsLines options (appendDeleteOps leftLines lb le ++ appendInsertOps rightLines rb re)
      (slice leftLines lb le) (slice rightLines rb re) := by
  simpa using (appendDeleteOps_aligns options leftLines lb le).append
    (appendInsertOps_aligns options rightLines rb re)

variable {options leftLines rightLines}

theorem appendEqualPairs_aligns {lb le rb re : Nat} (hr : rb ≤ re)
    (h : List.Forall₂ (fun l r => linesEqualForDiff l r options = true)
      (slice leftLines lb le) (slice rightLines rb re)) :
    AlignsLines options (appendEqualPairs leftLines lb le rightLines rb)
      (slice leftLines lb le) (slice rightLines rb re) := by
  rw [AlignsLines, appendEqualPairs, ← slice_append_drop rightLines hr,
    zipWith_append_right _ h.length_eq, map_zipWith]
  exact Aligns.keeps h

end Runs

/-! ### Interning

Ids index the keys interned so far, and the keys only grow. So whatever the later
lines add, an id keeps naming the key it named, and two lines with one id are equal to
the same key. -/

theorem internEq_iff (options : CompareBuildOptions) (key line : Line) :
    internEq options key line = true ↔ lineKey options key = lineKey options line := by
  unfold internEq lineKey
  cases options.ignoreWhitespace <;> simp [linesEqualIgnoringWhitespace_iff]

/-- `id` names, among `keys`, a key equal to `line`. -/
def NamesKey (options : CompareBuildOptions) (keys : List Line) (id : Nat) (line : Line) : Prop :=
  ∃ key, keys[id]? = some key ∧ lineKey options key = lineKey options line

variable {line : Line}

theorem NamesKey.mono {options : CompareBuildOptions} {keys keys' : List Line} {id : Nat}
    (hle : keys <+: keys') (h : NamesKey options keys id line) :
    NamesKey options keys' id line := by
  obtain ⟨key, hkey, heq⟩ := h
  obtain ⟨hid, -⟩ := List.getElem?_eq_some_iff.mp hkey
  obtain ⟨more, rfl⟩ := hle
  exact ⟨key, by rw [getElem?_append_left hid, hkey], heq⟩

/-- Two lines named by one id are equal for the diff. -/
theorem NamesKey.linesEqual {options : CompareBuildOptions} {keys : List Line} {id : Nat}
    {left right : Line} (hl : NamesKey options keys id left) (hr : NamesKey options keys id right) :
    linesEqualForDiff left right options = true := by
  obtain ⟨key, hkey, hleft⟩ := hl
  obtain ⟨key', hkey', hright⟩ := hr
  obtain rfl : key = key' := Option.some.inj (hkey.symm.trans hkey')
  exact (linesEqualForDiff_iff left right options).mpr (hleft.symm.trans hright)

theorem intern_spec (options : CompareBuildOptions) (keys : List Line) (line : Line) :
    keys <+: (intern options keys line).2 ∧
      NamesKey options (intern options keys line).2 (intern options keys line).1 line := by
  simp only [intern]
  by_cases hid : (keys.findIdx fun key => internEq options key line) < keys.length
  · rw [if_pos hid]
    exact ⟨prefix_rfl, _, getElem?_eq_getElem hid,
      (internEq_iff options _ line).mp (@findIdx_getElem _ _ _ hid)⟩
  · rw [if_neg hid]
    have hlen : (keys.findIdx fun key => internEq options key line) = keys.length :=
      Nat.le_antisymm findIdx_le_length (Nat.not_lt.mp hid)
    exact ⟨prefix_append keys [line], line, by simp [hlen], rfl⟩

theorem assignIds_spec (options : CompareBuildOptions) (keys lines : List Line) :
    keys <+: (assignIds options keys lines).2 ∧
      (assignIds options keys lines).1.length = lines.length ∧
      ∀ i line, lines[i]? = some line →
        NamesKey options (assignIds options keys lines).2
          ((assignIds options keys lines).1.getD i 0) line := by
  induction lines generalizing keys with
  | nil => simp [assignIds]
  | cons line lines ih =>
      obtain ⟨hgrow, hnames⟩ := intern_spec options keys line
      obtain ⟨hgrow', hlen, hrest⟩ := ih (intern options keys line).2
      refine ⟨hgrow.trans hgrow', ?_, ?_⟩
      · simp [assignIds, hlen]
      · intro i found hfound
        cases i with
        | zero =>
            obtain rfl : line = found := by simpa using hfound
            exact hnames.mono hgrow'
        | succ i => exact hrest i found (by simpa using hfound)

/-! ### The traceback -/

/-- Equal ids of the tables mean lines equal for the diff. -/
def ExactTables.IdsSound (t : ExactTables) (options : CompareBuildOptions) : Prop :=
  ∀ i j left right, t.leftLines[i]? = some left → t.rightLines[j]? = some right →
    t.leftIds.getD i 0 = t.rightIds.getD j 0 → linesEqualForDiff left right options = true

theorem exactTables_idsSound (options : CompareBuildOptions) (leftLines rightLines : List Line) :
    (exactTables options leftLines rightLines).IdsSound options := by
  intro i j left right hleft hright hid
  obtain ⟨-, -, hleftIds⟩ := assignIds_spec options [] leftLines
  obtain ⟨hgrow, -, hrightIds⟩ := assignIds_spec options (assignIds options [] leftLines).2 rightLines
  have hl := (hleftIds i left hleft).mono hgrow
  have hr := hrightIds j right hright
  rw [show (assignIds options [] leftLines).1.getD i 0 = _ from hid] at hl
  exact hl.linesEqual hr

/-- Whatever the table holds, the traceback runs through both remainders. The induction
is on the iterations left; when they are used up the rest is deleted and inserted. -/
theorem traceback_aligns {options : CompareBuildOptions} {t : ExactTables}
    (hids : t.IdsSound options) (fuel i j : Nat) :
    AlignsLines options (traceback t fuel i j) (t.leftLines.drop i) (t.rightLines.drop j) := by
  have hrest : ∀ i j, AlignsLines options
      (appendDeleteOps t.leftLines i t.leftLines.length ++
        appendInsertOps t.rightLines j t.rightLines.length)
      (t.leftLines.drop i) (t.rightLines.drop j) := by
    intro i j
    have h := coarse_aligns options t.leftLines t.rightLines i t.leftLines.length j
      t.rightLines.length
    rwa [slice_to_end _ _ (Nat.le_refl _), slice_to_end _ _ (Nat.le_refl _)] at h
  induction fuel generalizing i j with
  | zero => exact hrest i j
  | succ fuel ih =>
      rw [traceback]
      split
      · next left right hleft hright =>
        have hdropLeft : t.leftLines.drop i = left :: t.leftLines.drop (i + 1) := by
          obtain ⟨hi, rfl⟩ := List.getElem?_eq_some_iff.mp hleft
          exact drop_eq_getElem_cons hi
        have hdropRight : t.rightLines.drop j = right :: t.rightLines.drop (j + 1) := by
          obtain ⟨hj, rfl⟩ := List.getElem?_eq_some_iff.mp hright
          exact drop_eq_getElem_cons hj
        split
        · next hdiag =>
          have hid : t.leftIds.getD i 0 = t.rightIds.getD j 0 := by
            simp only [ExactTables.takesDiagonal, and_eq_true, beq_iff_eq] at hdiag
            exact hdiag.1
          rw [hdropLeft, hdropRight]
          exact Aligns.cons_keep (hids i j left right hleft hright hid) (ih (i + 1) (j + 1))
        · split
          · rw [hdropLeft]
            exact Aligns.cons_drop left (ih (i + 1) j)
          · rw [hdropRight]
            exact Aligns.cons_add right (ih i (j + 1))
      · exact hrest i j

theorem appendExactLineOps_aligns (options : CompareBuildOptions)
    (leftLines rightLines : List Line) :
    AlignsLines options (appendExactLineOps options leftLines rightLines) leftLines rightLines :=
  traceback_aligns (exactTables_idsSound options leftLines rightLines) _ 0 0

/-! ### Anchors

An anchor pairs a left position with a right position that hold the same line, and the
anchors increase on both sides. The first half is a property of the counting loops, the
second of the search for an increasing subsequence. -/

/-- `c` pairs a position of each range, and the two hold the same line. -/
def AnchorAt (leftLines : List Line) (lb le : Nat) (rightLines : List Line) (rb re : Nat)
    (c : Nat × Nat) : Prop :=
  (lb ≤ c.1 ∧ c.1 < le) ∧ (rb ≤ c.2 ∧ c.2 < re) ∧
    ∃ line, leftLines[c.1]? = some line ∧ rightLines[c.2]? = some line

/-- What the counting loops keep true of the info of `line`: a side that was counted has
recorded a position of its range where `line` stands. -/
def InfoSound (leftLines : List Line) (lb le : Nat) (rightLines : List Line) (rb re : Nat)
    (line : Line) (info : AnchorInfo) : Prop :=
  (info.leftCount ≠ 0 → (lb ≤ info.leftIndex ∧ info.leftIndex < le) ∧
    leftLines[info.leftIndex]? = some line) ∧
  (info.rightCount ≠ 0 → (rb ≤ info.rightIndex ∧ info.rightIndex < re) ∧
    rightLines[info.rightIndex]? = some line)

variable {f : AnchorInfo → AnchorInfo} {infos : List (Line × AnchorInfo)}

theorem updateInfo_sound {P : Line → AnchorInfo → Prop} (hempty : P line {})
    (hf : ∀ info, P line info → P line (f info)) (h : ∀ e ∈ infos, P e.1 e.2) :
    ∀ e ∈ updateInfo line f infos, P e.1 e.2 := by
  induction infos with
  | nil => simpa [updateInfo] using hf {} hempty
  | cons entry rest ih =>
      obtain ⟨key, info⟩ := entry
      obtain ⟨hentry, hrest⟩ := forall_mem_cons.mp h
      simp only [updateInfo]
      split
      · next hkey =>
        obtain rfl : key = line := by simpa using hkey
        exact forall_mem_cons.mpr ⟨hf info hentry, hrest⟩
      · exact forall_mem_cons.mpr ⟨hentry, ih hrest⟩

theorem mem_keys_updateInfo {key : Line} (h : key ∈ (updateInfo line f infos).map Prod.fst) :
    key = line ∨ key ∈ infos.map Prod.fst := by
  induction infos with
  | nil => exact Or.inl (by simpa [updateInfo] using h)
  | cons entry rest ih =>
      simp only [updateInfo] at h
      split at h
      · exact Or.inr h
      · rcases mem_cons.mp h with rfl | h
        · exact Or.inr mem_cons_self
        · exact (ih h).imp id (mem_cons_of_mem _)

/-- A line is never entered twice. -/
theorem updateInfo_nodup (h : (infos.map Prod.fst).Nodup) :
    ((updateInfo line f infos).map Prod.fst).Nodup := by
  induction infos with
  | nil => simp [updateInfo]
  | cons entry rest ih =>
      obtain ⟨hfresh, hrest⟩ := nodup_cons.mp h
      simp only [updateInfo]
      split
      · exact h
      · next hkey =>
        refine nodup_cons.mpr ⟨?_, ih hrest⟩
        intro hmem
        rcases mem_keys_updateInfo hmem with heq | hmem
        · exact hkey (by simpa using heq)
        · exact hfresh hmem

theorem foldl_updateInfo_sound {P : Line → AnchorInfo → Prop} (f : Nat → AnchorInfo → AnchorInfo)
    (hempty : ∀ line, P line {}) (placedLines : List (Line × Nat))
    (hf : ∀ line i info, (line, i) ∈ placedLines → P line info → P line (f i info))
    (infos : List (Line × AnchorInfo)) (h : ∀ e ∈ infos, P e.1 e.2)
    (hnodup : (infos.map Prod.fst).Nodup) :
    (∀ e ∈ placedLines.foldl (fun infos (line, i) => updateInfo line (f i) infos) infos, P e.1 e.2) ∧
      ((placedLines.foldl (fun infos (line, i) => updateInfo line (f i) infos) infos).map
        Prod.fst).Nodup := by
  induction placedLines generalizing infos with
  | nil => exact ⟨h, hnodup⟩
  | cons entry placedLines ih =>
      obtain ⟨line, i⟩ := entry
      refine ih (fun line' i' info hmem => hf line' i' info (mem_cons_of_mem _ hmem)) _ ?_
        (updateInfo_nodup hnodup)
      exact updateInfo_sound (hempty line) (fun info => hf line i info mem_cons_self) h

theorem mem_zipIdx_slice {lines : List Line} {b e i : Nat}
    (h : (line, i) ∈ (slice lines b e).zipIdx b) : (b ≤ i ∧ i < e) ∧ lines[i]? = some line := by
  obtain ⟨hle, hget⟩ := mk_mem_zipIdx_iff_le_and_getElem?_sub.mp h
  rw [getElem?_slice, Nat.add_sub_cancel' hle] at hget
  split at hget
  · next hlt => exact ⟨⟨hle, hlt⟩, hget⟩
  · cases hget

section Anchors

variable (leftLines : List Line) (lb le : Nat) (rightLines : List Line) (rb re : Nat)

theorem anchorInfos_sound : (∀ e ∈ anchorInfos leftLines lb le rightLines rb re,
        InfoSound leftLines lb le rightLines rb re e.1 e.2) ∧
      ((anchorInfos leftLines lb le rightLines rb re).map Prod.fst).Nodup := by
  have hempty : ∀ line, InfoSound leftLines lb le rightLines rb re line {} := by
    intro line
    simp [InfoSound]
  obtain ⟨hleft, hnodup⟩ := foldl_updateInfo_sound
    (fun i info => { info with leftCount := info.leftCount + 1, leftIndex := i }) hempty
    ((slice leftLines lb le).zipIdx lb)
    (fun line i info hmem hinfo => ⟨fun _ => mem_zipIdx_slice hmem, hinfo.2⟩)
    [] (by simp) (by simp)
  exact foldl_updateInfo_sound
    (fun i info => { info with rightCount := info.rightCount + 1, rightIndex := i }) hempty
    ((slice rightLines rb re).zipIdx rb)
    (fun line i info hmem hinfo => ⟨hinfo.1, fun _ => mem_zipIdx_slice hmem⟩) _ hleft hnodup

variable {leftLines lb le rightLines rb re}

theorem anchorCandidates_anchorAt {c : Nat × Nat}
    (hc : c ∈ anchorCandidates (anchorInfos leftLines lb le rightLines rb re)) :
    AnchorAt leftLines lb le rightLines rb re c := by
  obtain ⟨⟨line, info⟩, hmem, hsome⟩ :=
    mem_filterMap.mp ((mergeSort_perm _ _).mem_iff.mp hc)
  obtain ⟨hleft, hright⟩ := (anchorInfos_sound leftLines lb le rightLines rb re).1 _ hmem
  dsimp only at hsome
  split at hsome
  · cases hsome
  · split at hsome
    · next hcounts =>
      simp only [and_eq_true, beq_iff_eq] at hcounts
      obtain rfl := Option.some.inj hsome
      obtain ⟨hin, hline⟩ := hleft (by simp [hcounts.1])
      obtain ⟨hin', hline'⟩ := hright (by simp [hcounts.2])
      exact ⟨hin, hin', line, hline, hline'⟩
    · cases hsome

/-- Sorted candidates have strictly increasing left positions: two with one left
position would be one line. -/
theorem anchorCandidates_increasing :
    (anchorCandidates (anchorInfos leftLines lb le rightLines rb re)).Pairwise
      (fun a b => a.1 < b.1) := by
  obtain ⟨hsound, hnodup⟩ := anchorInfos_sound leftLines lb le rightLines rb re
  have hdistinct : (anchorCandidates (anchorInfos leftLines lb le rightLines rb re)).Pairwise
      (fun a b => a.1 ≠ b.1) := by
    refine (mergeSort_perm _ _).symm.pairwise ?_ (fun h => h.symm)
    rw [pairwise_filterMap]
    refine (pairwise_map.mp hnodup).imp_of_mem ?_
    rintro ⟨line, info⟩ ⟨line', info'⟩ hmem hmem' hne a ha b hb
    dsimp only at ha hb
    split at ha
    · cases ha
    · split at ha
      · split at hb
        · cases hb
        · split at hb
          · next hcounts _ hcounts' =>
            simp only [and_eq_true, beq_iff_eq] at hcounts hcounts'
            obtain rfl := Option.some.inj ha
            obtain rfl := Option.some.inj hb
            intro hindex
            have hline := ((hsound _ hmem).1 (by simp [hcounts.1])).2
            have hline' := ((hsound _ hmem').1 (by simp [hcounts'.1])).2
            dsimp only at hindex hline hline' hne
            rw [hindex, hline'] at hline
            exact hne (Option.some.inj hline).symm
          · cases hb
      · cases ha
  have hsorted : (anchorCandidates (anchorInfos leftLines lb le rightLines rb re)).Pairwise
      (fun a b => pairLe a b = true) := by
    refine pairwise_mergeSort ?_ ?_ _
    · intro a b c hab hbc
      simp only [pairLe, or_eq_true, and_eq_true, decide_eq_true_eq, beq_iff_eq] at hab hbc ⊢
      omega
    · intro a b
      simp only [pairLe, or_eq_true, and_eq_true, decide_eq_true_eq, beq_iff_eq]
      omega
  refine (hsorted.and hdistinct).imp ?_
  rintro a b ⟨hle, hne⟩
  simp only [pairLe, or_eq_true, and_eq_true, decide_eq_true_eq, beq_iff_eq] at hle
  omega

end Anchors

/-- The invariant of the pile search, once `predecessor.length` candidates are placed: a
pile's top belongs to a placed candidate, and a predecessor comes earlier and lies
further left on the right side. -/
structure PilesSound (candidates : List (Nat × Nat)) (p : Piles) : Prop where
  lengths : p.pileTops.length = p.pileCandidateIndices.length
  tops : ∀ k index : Nat, p.pileCandidateIndices[k]? = some index →
    index < p.predecessor.length ∧ ∃ c : Nat × Nat, candidates[index]? = some c ∧
      p.pileTops[k]? = some c.2
  preds : ∀ i q : Nat, p.predecessor[i]? = some (some q) →
    q < i ∧ ∃ c c' : Nat × Nat, candidates[q]? = some c ∧ candidates[i]? = some c' ∧ c.2 < c'.2

/-- The pile before the lower bound has a smaller top. -/
theorem getElem_lt_of_lt_lowerBound {xs : List Nat} {value k x : Nat} (hk : k < lowerBound xs value)
    (hx : xs[k]? = some x) : x < value := by
  obtain ⟨rest, hrest⟩ := takeWhile_prefix (fun y => decide (y < value)) (l := xs)
  rw [← hrest, getElem?_append_left hk] at hx
  simpa using mem_takeWhile_imp (mem_of_getElem? hx)

theorem PilesSound.place {candidates : List (Nat × Nat)} {p : Piles} (h : PilesSound candidates p)
    {c : Nat × Nat} (hc : candidates[p.predecessor.length]? = some c) :
    PilesSound candidates (p.place c.2) := by
  -- the new predecessor is the candidate on top of the pile before
  have hnew : ∀ q : Nat, (if lowerBound p.pileTops c.2 > 0 then
      p.pileCandidateIndices[lowerBound p.pileTops c.2 - 1]? else none) = some q →
      q < p.predecessor.length ∧ ∃ c', candidates[q]? = some c' ∧ c'.2 < c.2 := by
    intro q hq
    split at hq
    · obtain ⟨hlt, c', hc', htop⟩ := h.tops _ q hq
      exact ⟨hlt, c', hc', getElem_lt_of_lt_lowerBound (by omega) htop⟩
    · cases hq
  have hpreds : ∀ i q : Nat, (p.predecessor ++ [if lowerBound p.pileTops c.2 > 0 then
      p.pileCandidateIndices[lowerBound p.pileTops c.2 - 1]? else none])[i]? = some (some q) →
      q < i ∧ ∃ c c' : Nat × Nat, candidates[q]? = some c ∧ candidates[i]? = some c' ∧ c.2 < c'.2 := by
    intro i q hi
    rcases Nat.lt_trichotomy i p.predecessor.length with hlt | heq | hgt
    · rw [getElem?_append_left hlt] at hi
      exact h.preds i q hi
    · subst heq
      rw [getElem?_concat_length, Option.some.injEq] at hi
      obtain ⟨hlt, c', hc', hlt'⟩ := hnew q hi
      exact ⟨hlt, c', c, hc', hc, hlt'⟩
    · rw [getElem?_eq_none (by simp; omega)] at hi
      cases hi
  unfold Piles.place
  simp only
  split
  · next hlast =>
    refine ⟨by simp [h.lengths], ?_, hpreds⟩
    intro k index hk
    simp only [length_append, length_singleton]
    rcases Nat.lt_trichotomy k p.pileTops.length with hlt | heq | hgt
    · rw [getElem?_append_left (by rw [← h.lengths]; exact hlt)] at hk
      obtain ⟨hlt', c', hc', htop⟩ := h.tops k index hk
      exact ⟨by omega, c', hc', by rw [getElem?_append_left hlt, htop]⟩
    · subst heq
      rw [h.lengths, getElem?_concat_length, Option.some.injEq] at hk
      subst hk
      exact ⟨by omega, c, hc, by simp⟩
    · rw [getElem?_eq_none (by simp [← h.lengths]; omega)] at hk
      cases hk
  · refine ⟨by simp [h.lengths], ?_, hpreds⟩
    intro k index hk
    simp only [length_append, length_singleton]
    by_cases hpile : lowerBound p.pileTops c.2 = k
    · subst hpile
      obtain ⟨hlen, -⟩ := List.getElem?_eq_some_iff.mp hk
      rw [length_set] at hlen
      rw [getElem?_set_self hlen, Option.some.injEq] at hk
      subst hk
      exact ⟨by omega, c, hc, getElem?_set_self (by rw [h.lengths]; exact hlen)⟩
    · rw [getElem?_set_ne hpile] at hk
      obtain ⟨hlt', c', hc', htop⟩ := h.tops k index hk
      exact ⟨by omega, c', hc', by rw [getElem?_set_ne hpile, htop]⟩

theorem place_predecessor_length (p : Piles) (rightIndex : Nat) :
    (p.place rightIndex).predecessor.length = p.predecessor.length + 1 := by
  unfold Piles.place
  simp only
  split <;> simp

/-- The invariant holds after the whole loop over the candidates. -/
theorem pilesSound_foldl (done rest : List (Nat × Nat)) {p : Piles}
    (hlen : p.predecessor.length = done.length) (h : PilesSound (done ++ rest) p) :
    PilesSound (done ++ rest) (rest.foldl (fun (p : Piles) c => p.place c.2) p) := by
  induction rest generalizing done p with
  | nil => exact h
  | cons c rest ih =>
      have hc : (done ++ c :: rest)[p.predecessor.length]? = some c := by
        rw [hlen, getElem?_append_right (Nat.le_refl _)]
        simp
      have hnext := h.place hc
      rw [append_cons] at hnext ⊢
      exact ih (done ++ [c]) (by rw [place_predecessor_length, hlen]; simp) hnext

/-- Along a chain of predecessors both positions decrease. -/
theorem anchorChain_decreasing {candidates : List (Nat × Nat)} {p : Piles}
    (hsorted : candidates.Pairwise (fun a b => a.1 < b.1)) (h : PilesSound candidates p)
    (fuel : Nat) (start : Option Nat) (hstart : ∀ i ∈ start, i < candidates.length) :
    (anchorChain candidates p.predecessor fuel start).Pairwise (fun a b => b.1 < a.1 ∧ b.2 < a.2) ∧
      ∀ a ∈ anchorChain candidates p.predecessor fuel start, a ∈ candidates ∧
        ∀ i ∈ start, ∀ c ∈ candidates[i]?, a.1 ≤ c.1 ∧ a.2 ≤ c.2 := by
  induction fuel generalizing start with
  | zero => simp [anchorChain]
  | succ fuel ih =>
      cases start with
      | none => simp [anchorChain]
      | some index =>
          have hindex : index < candidates.length := hstart index rfl
          have hget : candidates[index]? = some candidates[index] := getElem?_eq_getElem hindex
          have hpred : ∀ q ∈ p.predecessor.getD index none,
              q < candidates.length ∧ ∃ c ∈ candidates[q]?, c.1 < candidates[index].1 ∧
                c.2 < candidates[index].2 := by
            intro q hq
            rw [getD_eq_getElem?_getD, Option.mem_def] at hq
            obtain ⟨hlt, c, c', hc, hc', hsnd⟩ := h.preds index q (by
              cases hsome : p.predecessor[index]? with
              | none => rw [hsome] at hq; cases hq
              | some o => rw [hsome] at hq; exact congrArg some hq)
            obtain ⟨hq', rfl⟩ := List.getElem?_eq_some_iff.mp hc
            obtain rfl : candidates[index] = c' := Option.some.inj (hget.symm.trans hc')
            exact ⟨hq', _, hc, pairwise_iff_getElem.mp hsorted q index hq' hindex hlt, hsnd⟩
          obtain ⟨hpair, htail⟩ := ih (p.predecessor.getD index none) fun q hq => (hpred q hq).1
          have hbelow : ∀ a ∈ anchorChain candidates p.predecessor fuel
              (p.predecessor.getD index none), a ∈ candidates ∧ a.1 < candidates[index].1 ∧
                a.2 < candidates[index].2 := by
            intro a ha
            cases hq : p.predecessor.getD index none with
            | none =>
                rw [hq] at ha
                cases fuel <;> simp [anchorChain] at ha
            | some q =>
                obtain ⟨-, c, hc, hlt, hlt'⟩ := hpred q hq
                obtain ⟨hmem, hle⟩ := htail a ha
                obtain ⟨hle, hle'⟩ := hle q hq c hc
                exact ⟨hmem, by omega, by omega⟩
          simp only [anchorChain, getD_eq_getElem?_getD, hget] at hbelow hpair ⊢
          have hhead : ∀ i ∈ some index, ∀ c ∈ candidates[i]?, c = candidates[index] := by
            intro i hi c hc
            obtain rfl := Option.some.inj hi
            exact (Option.some.inj (hget.symm.trans hc)).symm
          refine ⟨pairwise_cons.mpr ⟨fun a ha => (hbelow a ha).2, hpair⟩, ?_⟩
          intro a ha
          rcases mem_cons.mp ha with rfl | ha
          · refine ⟨getElem_mem hindex, fun i hi c hc => ?_⟩
            rw [hhead i hi c hc]
            exact ⟨Nat.le_refl _, Nat.le_refl _⟩
          · obtain ⟨hmem, hlt, hlt'⟩ := hbelow a ha
            refine ⟨hmem, fun i hi c hc => ?_⟩
            rw [hhead i hi c hc]
            exact ⟨Nat.le_of_lt hlt, Nat.le_of_lt hlt'⟩

/-- **Anchors pair equal lines and increase on both sides.** -/
theorem buildUniqueLineAnchors_sound (leftLines : List Line) (lb le : Nat) (rightLines : List Line)
    (rb re : Nat) : (buildUniqueLineAnchors leftLines lb le rightLines rb re).Pairwise
        (fun a b => a.1 < b.1 ∧ a.2 < b.2) ∧
      ∀ a ∈ buildUniqueLineAnchors leftLines lb le rightLines rb re,
        AnchorAt leftLines lb le rightLines rb re a := by
  have hpiles := pilesSound_foldl [] (anchorCandidates
    (anchorInfos leftLines lb le rightLines rb re)) (p := {}) rfl ⟨rfl, by simp, by simp⟩
  obtain ⟨hpair, hmem⟩ := anchorChain_decreasing anchorCandidates_increasing hpiles
    (anchorCandidates (anchorInfos leftLines lb le rightLines rb re)).length
    ((anchorCandidates (anchorInfos leftLines lb le rightLines rb re)).foldl
      (fun (p : Piles) candidate => p.place candidate.2) {}).pileCandidateIndices.getLast? (by
      intro i hi
      rw [Option.mem_def, getLast?_eq_getElem?] at hi
      obtain ⟨-, c, hc, -⟩ := hpiles.tops _ i hi
      exact (List.getElem?_eq_some_iff.mp hc).1)
  refine ⟨pairwise_reverse.mpr hpair, ?_⟩
  intro a ha
  exact anchorCandidates_anchorAt (hmem a (mem_reverse.mp ha)).1

/-! ### The anchored recursion -/

/-- The gaps between the anchors, the anchors themselves and the last gap make up the
whole of both ranges. -/
theorem anchoredSegments_aligns {options : CompareBuildOptions} {leftLines rightLines : List Line}
    {recur : Nat → Nat → Nat → Nat → List DiffOp} {leftSuffix rightSuffix : Nat}
    (hrecur : ∀ lb le rb re, lb ≤ le → le ≤ leftLines.length → rb ≤ re → re ≤ rightLines.length →
      AlignsLines options (recur lb le rb re) (slice leftLines lb le) (slice rightLines rb re))
    (hleft : leftSuffix ≤ leftLines.length) (hright : rightSuffix ≤ rightLines.length)
    (anchors : List (Nat × Nat)) (segmentLeft segmentRight : Nat)
    (hl : segmentLeft ≤ leftSuffix) (hr : segmentRight ≤ rightSuffix)
    (hpair : anchors.Pairwise (fun a b => a.1 < b.1 ∧ a.2 < b.2))
    (hat : ∀ a ∈ anchors,
      AnchorAt leftLines segmentLeft leftSuffix rightLines segmentRight rightSuffix a) :
    AlignsLines options
      (anchoredSegments recur leftLines rightLines leftSuffix rightSuffix anchors
        segmentLeft segmentRight)
      (slice leftLines segmentLeft leftSuffix) (slice rightLines segmentRight rightSuffix) := by
  induction anchors generalizing segmentLeft segmentRight with
  | nil => exact hrecur _ _ _ _ hl hleft hr hright
  | cons anchor anchors ih =>
      obtain ⟨anchorLeft, anchorRight⟩ := anchor
      obtain ⟨hfirst, hpair'⟩ := pairwise_cons.mp hpair
      obtain ⟨⟨hal, hal'⟩, ⟨har, har'⟩, line, hline, hline'⟩ := hat _ mem_cons_self
      have hgap := hrecur segmentLeft anchorLeft segmentRight anchorRight hal (by omega) har (by omega)
      have hrest := ih (anchorLeft + 1) (anchorRight + 1) (by omega) (by omega) hpair' (by
        intro a ha
        obtain ⟨⟨-, hle⟩, ⟨-, hle'⟩, hsame⟩ := hat a (mem_cons_of_mem _ ha)
        exact ⟨⟨(hfirst a ha).1, hle⟩, ⟨(hfirst a ha).2, hle'⟩, hsame⟩)
      have heq : linesEqualForDiff line line options = true := by simp [linesEqualForDiff]
      have hanchor : AlignsLines options
          (DiffOp.equal (leftLines.getD anchorLeft []) (rightLines.getD anchorRight []) ::
            anchoredSegments recur leftLines rightLines leftSuffix rightSuffix anchors
              (anchorLeft + 1) (anchorRight + 1))
          (slice leftLines anchorLeft leftSuffix) (slice rightLines anchorRight rightSuffix) := by
        rw [slice_eq_cons leftLines hal' hline, slice_eq_cons rightLines har' hline',
          getD_eq_getElem?_getD, getD_eq_getElem?_getD, hline, hline']
        exact Aligns.cons_keep heq hrest
      have hall := hgap.append hanchor
      rwa [slice_append leftLines hal (by omega), slice_append rightLines har (by omega)] at hall

/-- The trim: matched ends around an aligned middle align the whole. -/
theorem trim_aligns {options : CompareBuildOptions} {leftLines rightLines : List Line}
    {lb le rb re : Nat} (hl : lb ≤ le) (hle : le ≤ leftLines.length) (hr : rb ≤ re)
    (hre : re ≤ rightLines.length) {ends : Nat × Nat}
    (hends : ends = equalEnds (fun l r => linesEqualForDiff l r options)
      (slice leftLines lb le) (slice rightLines rb re))
    {middle : List DiffOp}
    (hmiddle : AlignsLines options middle (slice leftLines (lb + ends.1) (le - ends.2))
      (slice rightLines (rb + ends.1) (re - ends.2))) :
    AlignsLines options
      (appendEqualPairs leftLines lb (lb + ends.1) rightLines rb ++ middle ++
        appendEqualPairs leftLines (le - ends.2) le rightLines (re - ends.2))
      (slice leftLines lb le) (slice rightLines rb re) := by
  have hbound := equalEnds_le (fun l r => linesEqualForDiff l r options)
    (slice leftLines lb le) (slice rightLines rb re)
  have hstart := forall₂_equalEnds_fst (fun l r => linesEqualForDiff l r options)
    (slice leftLines lb le) (slice rightLines rb re)
  have hend := forall₂_equalEnds_snd (fun l r => linesEqualForDiff l r options)
    (slice leftLines lb le) (slice rightLines rb re)
  rw [← hends] at hbound hstart hend
  rw [length_slice, length_slice, Nat.min_eq_left hle, Nat.min_eq_left hre] at hbound hend
  rw [take_slice _ (by omega), take_slice _ (by omega)] at hstart
  rw [drop_slice, drop_slice, show lb + (le - lb - ends.2) = le - ends.2 by omega,
    show rb + (re - rb - ends.2) = re - ends.2 by omega] at hend
  have hall := ((appendEqualPairs_aligns (by omega) hstart).append hmiddle).append
    (appendEqualPairs_aligns (by omega) hend)
  rwa [slice_append _ (by omega) (by omega), slice_append _ (by omega) (by omega),
    slice_append _ (by omega) (by omega), slice_append _ (by omega) (by omega)] at hall

/-- **The anchored fallback aligns the ranges it is given, at every depth.** The
recursion is on the distance to the depth cap. -/
theorem appendAnchoredFallbackOps_aligns (options : CompareBuildOptions)
    (leftLines rightLines : List Line) (lb le rb re depth : Nat) (hl : lb ≤ le)
    (hle : le ≤ leftLines.length) (hr : rb ≤ re) (hre : re ≤ rightLines.length) :
    AlignsLines options
      (appendAnchoredFallbackOps options leftLines rightLines lb le rb re depth)
      (slice leftLines lb le) (slice rightLines rb re) := by
  rw [appendAnchoredFallbackOps]
  have hbound := equalEnds_le (fun l r => linesEqualForDiff l r options)
    (slice leftLines lb le) (slice rightLines rb re)
  rw [length_slice, length_slice, Nat.min_eq_left hle, Nat.min_eq_left hre] at hbound
  refine trim_aligns hl hle hr hre rfl ?_
  generalize equalEnds (fun l r => linesEqualForDiff l r options)
    (slice leftLines lb le) (slice rightLines rb re) = ends at hbound ⊢
  -- one case for each way the middle is emitted
  split
  · next hempty =>
    rw [hempty.1, hempty.2, slice_self, slice_self]
    exact Aligns.nil
  · split
    · next hempty =>
      rw [hempty, slice_self]
      exact appendInsertOps_aligns options rightLines _ _
    · split
      · next hempty =>
        rw [hempty, slice_self]
        exact appendDeleteOps_aligns options leftLines _ _
      · split
        · exact appendExactLineOps_aligns options _ _
        · split
          · exact coarse_aligns options leftLines rightLines _ _ _ _
          · next hdepth =>
            dsimp only
            split
            · exact coarse_aligns options leftLines rightLines _ _ _ _
            · obtain ⟨hpair, hat⟩ := buildUniqueLineAnchors_sound leftLines (lb + ends.1)
                (le - ends.2) rightLines (rb + ends.1) (re - ends.2)
              refine anchoredSegments_aligns ?_ (by omega) (by omega) _ _ _ (by omega) (by omega)
                hpair hat
              intro lb' le' rb' re' hl' hle' hr' hre'
              exact appendAnchoredFallbackOps_aligns options leftLines rightLines lb' le' rb' re'
                (depth + 1) hl' hle' hr' hre'
termination_by kMaxAnchoredFallbackDepth - depth
decreasing_by omega

/-! ### The whole differ -/

/-- Whichever aligner the size of the middle selects, it aligns the middle. -/
theorem middle_aligns (options : CompareBuildOptions) (leftMiddle rightMiddle : List Line) :
    AlignsLines options
      (if leftMiddle.isEmpty && rightMiddle.isEmpty then []
      else if productExceeds (leftMiddle.length + 1) (rightMiddle.length + 1)
          kMaxLineLcsMatrixCells then
        appendAnchoredFallbackOps options leftMiddle rightMiddle 0 leftMiddle.length
          0 rightMiddle.length 0
      else appendExactLineOps options leftMiddle rightMiddle)
      leftMiddle rightMiddle := by
  split
  · next hempty =>
    rw [and_eq_true, List.isEmpty_iff, List.isEmpty_iff] at hempty
    rw [hempty.1, hempty.2]
    exact Aligns.nil
  · split
    · have h := appendAnchoredFallbackOps_aligns options leftMiddle rightMiddle 0 _ 0 _ 0
        (Nat.zero_le _) (Nat.le_refl _) (Nat.zero_le _) (Nat.le_refl _)
      rwa [slice_whole, slice_whole] at h
    · exact appendExactLineOps_aligns options _ _

/-- **The differ aligns the two files.** -/
theorem buildLineDiffOps_aligns (leftLines rightLines : List Line) (options : CompareBuildOptions) :
    AlignsLines options (buildLineDiffOps leftLines rightLines options) leftLines rightLines := by
  have htrim : ∀ ends : Nat × Nat, ends = equalEnds (fun l r => linesEqualForDiff l r options)
      leftLines rightLines → ∀ middle : List DiffOp,
      AlignsLines options middle (slice leftLines ends.1 (leftLines.length - ends.2))
        (slice rightLines ends.1 (rightLines.length - ends.2)) →
      AlignsLines options
        (appendEqualPairs leftLines 0 ends.1 rightLines 0 ++ middle ++
          appendEqualPairs leftLines (leftLines.length - ends.2) leftLines.length rightLines
            (rightLines.length - ends.2))
        leftLines rightLines := by
    intro ends hends middle hmiddle
    rw [← slice_whole leftLines, ← slice_whole rightLines] at hends
    rw [← Nat.zero_add ends.1] at hmiddle
    have h := trim_aligns (Nat.zero_le _) (Nat.le_refl _) (Nat.zero_le _) (Nat.le_refl _) hends
      hmiddle
    rwa [Nat.zero_add, slice_whole, slice_whole] at h
  refine htrim _ rfl _ ?_
  exact middle_aligns options _ _

/-- **Line-diff soundness.** For every two line lists and every option: walking the
operations with one counter for each file, the left counters of the `Equal` and
`Delete` operations are `0, 1, …` up to the number of left lines, the right counters of
the `Equal` and `Insert` operations are `0, 1, …` up to the number of right lines, each
operation carries exactly the lines at its counters, and an `Equal` operation pairs two
lines that `LinesEqualForDiff` accepts. -/
theorem buildLineDiffOps_placed (leftLines rightLines : List Line) (options : CompareBuildOptions) :
    let script := (buildLineDiffOps leftLines rightLines options).map DiffOp.edit
    sourcePositions script = List.range leftLines.length ∧
      targetPositions script = List.range rightLines.length ∧
      ∀ step i j, (step, i, j) ∈ placed 0 0 script →
        (∀ left, step.source? = some left → leftLines[i]? = some left) ∧
        (∀ right, step.target? = some right → rightLines[j]? = some right) ∧
        ∀ left right, step = .keep left right → linesEqualForDiff left right options = true := by
  have haligns := buildLineDiffOps_aligns leftLines rightLines options
  intro script
  refine ⟨?_, ?_, ?_⟩
  · rw [sourcePositions, placed_source, haligns.source_eq, range_eq_range']
  · rw [targetPositions, placed_target, haligns.target_eq, range_eq_range']
  · intro step i j hstep
    obtain ⟨di, dj, hi, hj, hsource, htarget⟩ := placed_elements script 0 0 _ hstep
    obtain rfl : i = di := by simpa using hi
    obtain rfl : j = dj := by simpa using hj
    rw [haligns.source_eq] at hsource
    rw [haligns.target_eq] at htarget
    refine ⟨hsource, htarget, ?_⟩
    rintro left right rfl
    exact haligns.kept left right (mem_of_mem_placed hstep)

end Microide.Compare
