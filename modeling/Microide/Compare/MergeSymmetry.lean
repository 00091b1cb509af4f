/-
Symmetry and identity of the three-way merge.

Only the order of two changes with one base range depends on which side is which, and
the ranges of the groups do not see that order. So exchanging the sides exchanges the
two texts of every hunk and nothing else.

**Main results.** `merge_symmetry_identity`: the exchange, and the merges in which two of
the three texts are one; `mixedBreaks_merge`: mixed line breaks.
-/

import Microide.Compare.MergeProjections

namespace Microide.Compare

open List Lib Text

/-! ### The bootstrapped result -/

/-- `BuildMergeResultText`. -/
def buildMergeResultText (model : MergeModel) (separator : List UInt8) (bootstrap : Bool) :
    List UInt8 :=
  joinLines (mergeResultFrom model.baseLines bootstrap 0 model.hunks) separator

/-- `BootstrapMergeResultText`. -/
def bootstrapMergeResultText (model : MergeModel) (separator : List UInt8) : List UInt8 :=
  buildMergeResultText model separator true

/-- The lines a hunk contributes before any choice is made. -/
def bootstrapLines (hunk : MergeHunk) : List Line :=
  (mergeChoiceLineViews hunk (bootstrapMergeChoice hunk)).1 ++
    (mergeChoiceLineViews hunk (bootstrapMergeChoice hunk)).2

/-- Both sides agree, one side is unchanged, or the base stays. -/
theorem bootstrapLines_eq (hunk : MergeHunk) : bootstrapLines hunk =
      if hunk.incomingLines = hunk.currentLines then hunk.incomingLines
      else if hunk.incomingLines = hunk.baseLines then hunk.currentLines
      else if hunk.currentLines = hunk.baseLines then hunk.incomingLines
      else hunk.baseLines := by
  unfold bootstrapLines bootstrapMergeChoice
  split
  · exact append_nil _
  · split
    · exact append_nil _
    · split
      · exact append_nil _
      · exact append_nil _

/-! ### The ranges of the groups -/

/-- The base range of a change. -/
def TaggedChange.range (c : TaggedChange) : Nat × Nat :=
  (c.change.start, c.change.stop)

/-- By start, then by end. -/
def rangeLe (r r' : Nat × Nat) : Prop :=
  r.1 < r'.1 ∨ (r.1 = r'.1 ∧ r.2 ≤ r'.2)

theorem mergeSort_taggedChangeLe_range (cs : List TaggedChange) :
    ((cs.mergeSort taggedChangeLe).map TaggedChange.range).Pairwise rangeLe := by
  refine pairwise_map.mpr ((pairwise_mergeSort_taggedChangeLe cs).imp ?_)
  intro a b hab
  rw [taggedChangeLe_iff] at hab
  simp only [rangeLe, TaggedChange.range]
  omega

/-- Sorted ranges are determined by what they are a permutation of. -/
theorem map_range_mergeSort {cs cs' : List TaggedChange}
    (h : (cs.map TaggedChange.range).Perm (cs'.map TaggedChange.range)) :
    (cs.mergeSort taggedChangeLe).map TaggedChange.range =
      (cs'.mergeSort taggedChangeLe).map TaggedChange.range := by
  have hperm : ((cs.mergeSort taggedChangeLe).map TaggedChange.range).Perm
      ((cs'.mergeSort taggedChangeLe).map TaggedChange.range) :=
    (((mergeSort_perm cs _).map _).trans h).trans ((mergeSort_perm cs' _).map _).symm
  refine hperm.eq_of_pairwise ?_ (mergeSort_taggedChangeLe_range cs)
    (mergeSort_taggedChangeLe_range cs')
  rintro ⟨a, b⟩ ⟨a', b'⟩ _ _ hle hge
  simp only [rangeLe] at hle hge
  rw [Prod.mk.injEq]
  omega

/-- Which changes join a group is decided by their ranges. -/
theorem groupChanges_ranges {rest rest' group group' : List TaggedChange} (maxEnd : Nat)
    (hrest : rest.map TaggedChange.range = rest'.map TaggedChange.range)
    (hgroup : group.map TaggedChange.range = group'.map TaggedChange.range) :
    (groupChanges group maxEnd rest).map (List.map TaggedChange.range) =
      (groupChanges group' maxEnd rest').map (List.map TaggedChange.range) := by
  have hempty : ∀ {g g' : List TaggedChange},
      g.map TaggedChange.range = g'.map TaggedChange.range → g.isEmpty = g'.isEmpty := by
    intro g g' heq
    rw [← isEmpty_map, heq, isEmpty_map]
  induction rest generalizing rest' group group' maxEnd with
  | nil =>
      obtain rfl : rest' = [] := by simpa using hrest.symm
      rw [groupChanges, groupChanges, hempty hgroup]
      split
      · rfl
      · rw [map_singleton, map_singleton, hgroup]
  | cons c rest ih =>
      obtain ⟨c', rest', rfl⟩ : ∃ c' tail, rest' = c' :: tail := by
        cases rest' with
        | nil => cases hrest
        | cons c' tail => exact ⟨c', tail, rfl⟩
      rw [map_cons, map_cons, List.cons.injEq] at hrest
      obtain ⟨hhead, htail⟩ := hrest
      have hstart : c.change.start = c'.change.start := congrArg Prod.fst hhead
      have hstop : c.change.stop = c'.change.stop := congrArg Prod.snd hhead
      rw [groupChanges, groupChanges, hempty hgroup, hstart, hstop]
      split
      · apply ih _ htail
        rw [map_append, map_append, hgroup, map_singleton, map_singleton, hhead]
      · rw [map_cons, map_cons, hgroup, ih _ htail]
        rw [map_singleton, map_singleton, hhead]

variable {g : List TaggedChange}

/-- The range of a hunk is decided by the ranges of its group. -/
theorem flushGroup_range_eq (base base' : List Line) {g' : List TaggedChange}
    (h : g.map TaggedChange.range = g'.map TaggedChange.range) :
    (flushGroup base g).baseStart = (flushGroup base' g').baseStart ∧
      (flushGroup base g).baseEnd = (flushGroup base' g').baseEnd := by
  have hread : ∀ (base : List Line) (g : List TaggedChange),
      (flushGroup base g).baseStart = (g.map TaggedChange.range).foldl (fun b r => min b r.1)
          ((g.map TaggedChange.range).headD (0, 0)).1 ∧
        (flushGroup base g).baseEnd = (g.map TaggedChange.range).foldl (fun b r => max b r.2)
          ((g.map TaggedChange.range).headD (0, 0)).2 := by
    intro base g
    rw [foldl_map, foldl_map]
    cases g <;> exact ⟨rfl, rfl⟩
  rw [(hread base g).1, (hread base g).2, (hread base' g').1, (hread base' g').2, h]
  exact ⟨rfl, rfl⟩

/-! ### What a group holds of one side -/

/-- The changes that lie within a hunk's range. -/
def changesWithin (hunk : MergeHunk) (changes : List SideChange) : List SideChange :=
  changes.filter fun c => hunk.baseStart ≤ c.start ∧ c.stop ≤ hunk.baseEnd

theorem changesOfSide_append (side : MergeSide) (g g' : List TaggedChange) :
    changesOfSide side (g ++ g') = changesOfSide side g ++ changesOfSide side g' := by
  simp [changesOfSide]

theorem mem_of_mem_changesOfSide {side : MergeSide} {c : SideChange}
    (h : c ∈ changesOfSide side g) :
    ∃ t ∈ g, t.change = c := by
  obtain ⟨t, ht, rfl⟩ := mem_map.mp h
  exact ⟨t, (mem_filter.mp ht).1, rfl⟩

/-- The groups are apart, so a group holds everything a side changes within its range. -/
theorem GroupsSound.changesOfSide_eq {base : List Line} {groups : List (List TaggedChange)}
    (h : GroupsSound base groups) (hg : g ∈ groups) (side : MergeSide) : changesOfSide side g =
      changesWithin (flushGroup base g) (changesOfSide side groups.flatten) := by
  have hne := h.nonempty g hg
  obtain ⟨hin, ⟨first, hfirst, hstart⟩, last, hlast, hend⟩ := flushGroup_range base hne
  obtain ⟨before, after, hgroups⟩ := append_of_mem hg
  have hapart := h.apart
  rw [hgroups, pairwise_append, pairwise_cons] at hapart
  obtain ⟨-, ⟨hafter, -⟩, hbefore⟩ := hapart
  have hbounds : ∀ g' ∈ groups, ∀ t ∈ g', t.change.start ≤ t.change.stop :=
    fun g' hg' t ht => (h.change_bounds hg' ht).1
  have hnone : ∀ gs : List (List TaggedChange),
      (∀ g' ∈ gs, ∀ t ∈ g', ¬ ((flushGroup base g).baseStart ≤ t.change.start ∧
        t.change.stop ≤ (flushGroup base g).baseEnd)) →
      changesWithin (flushGroup base g) (changesOfSide side gs.flatten) = [] := by
    intro gs hout
    refine filter_eq_nil_iff.mpr fun c hc => ?_
    obtain ⟨t, ht, rfl⟩ := mem_of_mem_changesOfSide hc
    obtain ⟨g', hg', ht⟩ := mem_flatten.mp ht
    simpa using hout g' hg' t ht
  have hall : changesWithin (flushGroup base g) (changesOfSide side g) = changesOfSide side g := by
    refine filter_eq_self.mpr fun c hc => ?_
    obtain ⟨t, ht, rfl⟩ := mem_of_mem_changesOfSide hc
    simpa using hin t ht
  rw [hgroups, flatten_append, flatten_cons, changesOfSide_append, changesOfSide_append,
    changesWithin, filter_append, filter_append]
  have hleft := hnone before (by
    intro g' hg' t ht hwithin
    have := hbefore g' hg' g (mem_cons_self ..) t ht first hfirst
    have := hbounds g' (hgroups ▸ mem_append_left _ hg') t ht
    omega)
  have hright := hnone after (by
    intro g' hg' t ht hwithin
    have := hafter g' hg' last hlast t ht
    have := hbounds g' (hgroups ▸ mem_append_right _ (mem_cons_of_mem _ hg')) t ht
    omega)
  rw [← changesWithin, ← changesWithin, ← changesWithin, hleft, hall, hright, nil_append,
    append_nil]

/-! ### Exchanging the sides -/

/-- The changes one text makes to the base in a merge of the three. -/
def changesOfText (base variant other : List UInt8) : List SideChange :=
  let phantomsAgree := hasPhantom base && hasPhantom variant && hasPhantom other
  let realLines (lines : List Line) : List Line :=
    lines.take (if phantomsAgree && !lines.isEmpty then lines.length - 1 else lines.length)
  buildSideChanges (realLines (splitLineViews base)) (realLines (splitLineViews variant))

/-- Whether the phantoms agree does not depend on which side is which. -/
theorem mergeChanges_eq (base incoming current : List UInt8) : mergeChanges base incoming current =
      (taggedChanges (changesOfText base incoming current) .incoming ++
        taggedChanges (changesOfText base current incoming) .current).mergeSort taggedChangeLe := by
  rw [mergeChanges, changesOfText, changesOfText,
    Bool.and_right_comm (hasPhantom base) (hasPhantom current) (hasPhantom incoming)]

theorem changesOfText_increasing (base variant other : List UInt8) :
    (changesOfText base variant other).Pairwise fun a b => a.start < b.start := by
  have hpatches := sideChanges_patchesTo base variant
    (hasPhantom base && hasPhantom variant && hasPhantom other)
    (by simp only [Bool.and_eq_true]; exact fun h => h.1.1)
    (by simp only [Bool.and_eq_true]; exact fun h => h.1.2)
  exact start_lt_of_separated hpatches.fits hpatches.separated

theorem changesOfSide_mergeChanges (base incoming current : List UInt8) :
    changesOfSide .incoming (mergeChanges base incoming current) =
        changesOfText base incoming current ∧
      changesOfSide .current (mergeChanges base incoming current) =
        changesOfText base current incoming := by
  obtain ⟨hincoming, hcurrent⟩ := changesOfSide_taggedChanges
    (changesOfText base incoming current) (changesOfText base current incoming)
  rw [mergeChanges_eq]
  constructor
  · exact changesOfSide_mergeSort hincoming (changesOfText_increasing base incoming current)
  · exact changesOfSide_mergeSort hcurrent (changesOfText_increasing base current incoming)

/-- The lines of a hunk, from the changes the two texts make within its range. -/
theorem flushGroup_lines {base incoming current : List UInt8}
    (hg : g ∈ mergeGroups base incoming current) : let hunk := flushGroup (splitLineViews base) g
    hunk.baseLines = slice (splitLineViews base) hunk.baseStart hunk.baseEnd ∧
      hunk.incomingLines = applySideChangesToSlice (splitLineViews base) hunk.baseStart hunk.baseEnd
        (changesWithin hunk (changesOfText base incoming current)) ∧
      hunk.currentLines = applySideChangesToSlice (splitLineViews base) hunk.baseStart hunk.baseEnd
        (changesWithin hunk (changesOfText base current incoming)) := by
  intro hunk
  have hsound := mergeGroups_sound base incoming current
  obtain ⟨hincoming, hcurrent⟩ := changesOfSide_mergeChanges base incoming current
  have hside : ∀ side, changesOfSide side g =
      changesWithin hunk (changesOfSide side (mergeChanges base incoming current)) := by
    intro side
    rw [← mergeGroups_flatten]
    exact hsound.changesOfSide_eq hg side
  rw [← hincoming, ← hcurrent, ← hside, ← hside]
  exact ⟨rfl, rfl, rfl⟩

theorem flushGroup_conflict (base : List Line) (g : List TaggedChange) :
    (flushGroup base g).conflict =
      decide ((flushGroup base g).incomingLines ≠ (flushGroup base g).currentLines ∧
        (flushGroup base g).incomingLines ≠ (flushGroup base g).baseLines ∧
        (flushGroup base g).currentLines ≠ (flushGroup base g).baseLines) := rfl

/-- `hunk'` is `hunk` with its two sides exchanged. -/
structure SwapOf (hunk hunk' : MergeHunk) : Prop where
  index : hunk'.index = hunk.index
  baseStart : hunk'.baseStart = hunk.baseStart
  baseEnd : hunk'.baseEnd = hunk.baseEnd
  baseLines : hunk'.baseLines = hunk.baseLines
  incomingLines : hunk'.incomingLines = hunk.currentLines
  currentLines : hunk'.currentLines = hunk.incomingLines
  conflict : hunk'.conflict = hunk.conflict

theorem mergeGroups_swap (base incoming current : List UInt8) :
    (mergeGroups base current incoming).map (List.map TaggedChange.range) =
      (mergeGroups base incoming current).map (List.map TaggedChange.range) := by
  have hperm : ∀ cs cs' : List SideChange,
      ((taggedChanges cs .incoming ++ taggedChanges cs' .current).map TaggedChange.range).Perm
        ((taggedChanges cs' .incoming ++ taggedChanges cs .current).map TaggedChange.range) := by
    intro cs cs'
    simp only [taggedChanges, map_append, map_map]
    exact perm_append_comm
  refine groupChanges_ranges 0 ?_ rfl
  rw [mergeChanges_eq, mergeChanges_eq]
  exact map_range_mergeSort (hperm _ _)

/-- Exchanging the sides exchanges the two texts of every hunk. -/
theorem buildMergeModel_swap (base incoming current : List UInt8) :
    List.Forall₂ SwapOf (buildMergeModel base incoming current).hunks
      (buildMergeModel base current incoming).hunks := by
  have hranges := mergeGroups_swap base incoming current
  have hlength := congrArg List.length hranges
  rw [length_map, length_map] at hlength
  rw [buildMergeModel_hunks, buildMergeModel_hunks]
  refine forall₂_iff_get.mpr ⟨by rw [length_mapIdx, length_mapIdx, hlength], ?_⟩
  intro i hi hi'
  rw [length_mapIdx] at hi hi'
  simp only [get_eq_getElem, getElem_mapIdx]
  obtain ⟨g, hget⟩ : ∃ g, g = (mergeGroups base incoming current)[i] := ⟨_, rfl⟩
  obtain ⟨g', hget'⟩ : ∃ g', g' = (mergeGroups base current incoming)[i] := ⟨_, rfl⟩
  rw [← hget, ← hget']
  have hrange : g'.map TaggedChange.range = g.map TaggedChange.range := by
    have := congrArg (fun ranges => ranges[i]?) hranges
    simpa [hget, hget', hi, hi'] using this
  obtain ⟨hstart, hend⟩ := flushGroup_range_eq (splitLineViews base) (splitLineViews base) hrange
  obtain ⟨hbase, hincoming, hcurrent⟩ := flushGroup_lines (hget ▸ getElem_mem hi)
  obtain ⟨hbase', hincoming', hcurrent'⟩ := flushGroup_lines (hget' ▸ getElem_mem hi')
  have hlines : (flushGroup (splitLineViews base) g').baseLines =
        (flushGroup (splitLineViews base) g).baseLines ∧
      (flushGroup (splitLineViews base) g').incomingLines =
        (flushGroup (splitLineViews base) g).currentLines ∧
      (flushGroup (splitLineViews base) g').currentLines =
        (flushGroup (splitLineViews base) g).incomingLines := by
    rw [hbase, hbase', hincoming, hincoming', hcurrent, hcurrent', changesWithin, changesWithin,
      changesWithin, changesWithin, hstart, hend]
    exact ⟨rfl, rfl, rfl⟩
  obtain ⟨hbase, hincoming, hcurrent⟩ := hlines
  refine ⟨rfl, hstart, hend, hbase, hincoming, hcurrent, ?_⟩
  rw [flushGroup_conflict, flushGroup_conflict, hbase, hincoming, hcurrent, decide_eq_decide]
  constructor
  · rintro ⟨hne, hleft, hright⟩
    exact ⟨Ne.symm hne, hright, hleft⟩
  · rintro ⟨hne, hleft, hright⟩
    exact ⟨Ne.symm hne, hright, hleft⟩

theorem SwapOf.bootstrapLines_eq {hunk hunk' : MergeHunk} (h : SwapOf hunk hunk') :
    bootstrapLines hunk' = bootstrapLines hunk := by
  rw [Compare.bootstrapLines_eq, Compare.bootstrapLines_eq, h.incomingLines, h.currentLines,
    h.baseLines]
  by_cases hsame : hunk.incomingLines = hunk.currentLines
  · rw [if_pos hsame, if_pos hsame.symm, hsame]
  · rw [if_neg hsame, if_neg (Ne.symm hsame)]
    by_cases hleft : hunk.incomingLines = hunk.baseLines
    · rw [if_pos hleft, if_pos hleft, if_neg fun hright => hsame (hleft.trans hright.symm)]
    · rw [if_neg hleft, if_neg hleft]

/-- The bootstrapped walk reads ranges and bootstrapped lines only. -/
theorem mergeResultFrom_swap (base : List Line) {hunks hunks' : List MergeHunk}
    (h : List.Forall₂ SwapOf hunks hunks') (cursor : Nat) :
    mergeResultFrom base true cursor hunks' = mergeResultFrom base true cursor hunks := by
  induction h generalizing cursor with
  | nil => rfl
  | @cons hunk hunk' hunks hunks' hswap _ ih =>
      have hlines := hswap.bootstrapLines_eq
      rw [bootstrapLines, bootstrapLines] at hlines
      simp only [mergeResultFrom, if_true, hlines, hswap.baseStart, hswap.baseEnd, ih]

/-! ### Two of the three texts are one -/

/-- A text changes nothing of itself. -/
theorem buildSideChanges_self (lines : List Line) : buildSideChanges lines lines = [] := by
  have hself : ∀ line, linesEqualForDiff line line {} = true := fun line => by
    simp [linesEqualForDiff]
  have hends : equalEnds (fun l r => linesEqualForDiff l r {}) lines lines = (lines.length, 0) :=
    equalEnds_self (fun l r => linesEqualForDiff l r {}) hself lines
  have hops : buildLineDiffOps lines lines = List.zipWith DiffOp.equal lines lines := by
    simp [buildLineDiffOps, findEqualEnds, hends, appendEqualPairs]
  have hequal : ∀ (xs ys : List Line) (n : Nat),
      sideChangesFrom n none (List.zipWith DiffOp.equal xs ys) = [] := by
    intro xs
    induction xs with
    | nil => exact fun _ _ => rfl
    | cons x xs ih =>
        intro ys n
        cases ys with
        | nil => rfl
        | cons y ys => exact ih ys (n + 1)
  rw [buildSideChanges, hops]
  exact hequal lines lines 0

theorem changesOfText_self (base other : List UInt8) : changesOfText base base other = [] :=
  buildSideChanges_self _

/-- When every hunk bootstraps to its incoming lines, the result is the incoming text. -/
theorem bootstrap_incoming {base incoming current : List UInt8}
    (h : ∀ hunk ∈ (buildMergeModel base incoming current).hunks,
      bootstrapLines hunk = hunk.incomingLines) :
    mergeResultFrom (splitLineViews base) true 0 (buildMergeModel base incoming current).hunks =
      splitLineViews incoming := by
  have hwalk : ∀ (hunks : List MergeHunk) (cursor : Nat),
      (∀ hunk ∈ hunks, bootstrapLines hunk = hunk.incomingLines) →
      mergeResultFrom (splitLineViews base) true cursor hunks =
        mergeResultFrom (splitLineViews base) false cursor
          (hunks.map fun hunk => { hunk with choice := .incoming }) := by
    intro hunks
    induction hunks with
    | nil => exact fun _ _ => rfl
    | cons hunk hunks ih =>
        intro cursor hhunks
        obtain ⟨hhunk, hrest⟩ := forall_mem_cons.mp hhunks
        rw [bootstrapLines] at hhunk
        simp only [mergeResultFrom, if_true, hhunk, ih _ hrest, map_cons]
        simp [mergeChoiceLineViews]
  rw [hwalk _ 0 h]
  exact (mergeResultFrom_chooseAll base incoming current (Or.inr (Or.inl rfl))).trans
    (mergeChanges_patchesTo base incoming current).1.patched

/-- Every hunk of a model is flushed from one of its groups. -/
theorem forall_hunks {base incoming current : List UInt8} {p : MergeHunk → Prop}
    (h : ∀ g ∈ mergeGroups base incoming current, ∀ i,
      p { flushGroup (splitLineViews base) g with index := i }) :
    ∀ hunk ∈ (buildMergeModel base incoming current).hunks, p hunk := by
  intro hunk hmem
  rw [buildMergeModel_hunks] at hmem
  obtain ⟨i, hi, rfl⟩ := mem_mapIdx.mp hmem
  exact h _ (getElem_mem _) i

theorem applySideChangesToSlice_nil (base : List Line) (start stop : Nat) :
    applySideChangesToSlice base start stop [] = slice base start stop := by
  rw [applySideChangesToSlice, mergeSort_nil, applySortedChanges]

/-- An unchanged current side leaves the incoming text. -/
theorem bootstrap_current_eq_base (base incoming : List UInt8) :
    mergeResultFrom (splitLineViews base) true 0 (buildMergeModel base incoming base).hunks =
      splitLineViews incoming := by
  apply bootstrap_incoming
  apply forall_hunks
  intro g hg i
  obtain ⟨hbase, -, hcurrent⟩ := flushGroup_lines hg
  rw [changesOfText_self, changesWithin, filter_nil, applySideChangesToSlice_nil,
    ← hbase] at hcurrent
  rw [bootstrapLines_eq]
  rw [hcurrent, if_pos rfl]
  by_cases hsame : (flushGroup (splitLineViews base) g).incomingLines =
      (flushGroup (splitLineViews base) g).baseLines
  · rw [if_pos hsame]
  · rw [if_neg hsame, if_neg hsame]

/-- Equal sides agree in every hunk. -/
theorem sides_agree (base text : List UInt8) : ∀ hunk ∈ (buildMergeModel base text text).hunks,
      hunk.incomingLines = hunk.currentLines ∧ hunk.conflict = false := by
  apply forall_hunks
  intro g hg i
  obtain ⟨-, hincoming, hcurrent⟩ := flushGroup_lines hg
  have hagree := hincoming.trans hcurrent.symm
  refine ⟨hagree, ?_⟩
  rw [flushGroup_conflict, decide_eq_false_iff_not]
  exact fun hconflict => hconflict.1 hagree

/-! ### Main result -/

/-- The bootstrapped result is `text`: it has the lines of `text`, whatever joins them, and
joined by `'\n'` it is `text` itself where `'\n'` is the only line break of `text`. -/
structure BootstrapsTo (model : MergeModel) (text : List UInt8) : Prop where
  lines : ∀ separator, bootstrapMergeResultText model separator =
    joinLines (splitLineViews text) separator
  text_eq : cr ∉ text → bootstrapMergeResultText model [lf] = text

theorem BootstrapsTo.of_lines {model : MergeModel} {text : List UInt8}
    (h : mergeResultFrom model.baseLines true 0 model.hunks = splitLineViews text) :
    BootstrapsTo model text := by
  have hlines : ∀ separator, bootstrapMergeResultText model separator =
      joinLines (splitLineViews text) separator :=
    fun separator => congrArg (joinLines · separator) h
  exact ⟨hlines, fun hcr => (hlines [lf]).trans (joinLines_splitLineViews hcr)⟩

/-- **Merge symmetry and identity.** Exchanging incoming and current exchanges the two sides
of each hunk, and leaves its range, its conflict flag and the bootstrapped result text as
they are. A side equal to the base leaves the other side, and equal sides leave their text
without a conflict. -/
theorem merge_symmetry_identity (base incoming current : List UInt8) :
    (List.Forall₂ SwapOf (buildMergeModel base incoming current).hunks
        (buildMergeModel base current incoming).hunks ∧
      ∀ separator, bootstrapMergeResultText (buildMergeModel base current incoming) separator =
        bootstrapMergeResultText (buildMergeModel base incoming current) separator) ∧
    BootstrapsTo (buildMergeModel base incoming base) incoming ∧
    BootstrapsTo (buildMergeModel base base current) current ∧
    BootstrapsTo (buildMergeModel base incoming incoming) incoming ∧
    ∀ hunk ∈ (buildMergeModel base incoming incoming).hunks, hunk.conflict = false := by
  have hswap : ∀ incoming current : List UInt8,
      mergeResultFrom (splitLineViews base) true 0 (buildMergeModel base current incoming).hunks =
        mergeResultFrom (splitLineViews base) true 0
          (buildMergeModel base incoming current).hunks :=
    fun incoming current => mergeResultFrom_swap _ (buildMergeModel_swap base incoming current) 0
  refine ⟨⟨buildMergeModel_swap base incoming current, ?_⟩, ?_, ?_, ?_, ?_⟩
  · exact fun separator => congrArg (joinLines · separator) (hswap incoming current)
  · exact .of_lines (bootstrap_current_eq_base base incoming)
  · exact .of_lines ((hswap current base).trans (bootstrap_current_eq_base base current))
  · refine .of_lines (bootstrap_incoming fun hunk hmem => ?_)
    rw [bootstrapLines_eq, if_pos (sides_agree base incoming hunk hmem).1]
  · exact fun hunk hmem => (sides_agree base incoming hunk hmem).2

/-- A text that breaks one line by `"\r\n"` and another by `"\n"`. Merged with itself, no
separator gives it back. -/
theorem mixedBreaks_merge :
    ¬ ∃ separator, bootstrapMergeResultText
      (buildMergeModel (ascii "a\r\nb\n") (ascii "a\r\nb\n") (ascii "a\r\nb\n")) separator =
        ascii "a\r\nb\n" := by
  rintro ⟨separator, h⟩
  have hlines : splitLineViews (ascii "a\r\nb\n") = [ascii "a", ascii "b", []] := by decide
  have hjoined : bootstrapMergeResultText
      (buildMergeModel (ascii "a\r\nb\n") (ascii "a\r\nb\n") (ascii "a\r\nb\n")) separator =
      joinLines [ascii "a", ascii "b", []] separator := by
    rw [← hlines]
    exact congrArg (joinLines · separator) (bootstrap_current_eq_base _ _)
  -- The joined text has two bytes besides its two separators, and the text five.
  have hlength := congrArg List.length (hjoined.symm.trans h)
  simp [joinLines, List.intercalate, List.intersperse, ascii] at hlength
  omega

end Microide.Compare
