/-
Consistency of the diagnostics store.

The merged list of a path is what its owners hold, sorted and cut; the badges are the sums of the merged
counts. A rebuild makes the path it is for right and keeps the sums, whatever the owners' lists became
before it; an operation rebuilds every path whose lists it changed.

**Main results.** `rebuildPath_spec`: a rebuild; `sweep_consistent`: a change of the index and its
rebuilds; `perform_consistent`: the operations; `diagnosticsConsistency`: over every run.
-/

import Microide.Editor.DiagnosticsStore

namespace Microide.Editor.DiagnosticsStore

open List Lib Util AList

/-! ### What is to hold -/

/-- A path's merged file, by what the owners have for it. -/
def MergedOf (files : List (List UInt8 × FileDiagnostics)) (merged : FileDiagnostics) : Prop :=
  ∃ sorted : List PublishedDiagnostic,
    sorted.Perm (files.flatMap fun file => file.2.diagnostics) ∧
      sorted.Pairwise (fun a b => a.rank ≤ b.rank) ∧ sorted ≠ [] ∧
      merged.diagnostics = sorted.take kMaxMergedDiagnosticsPerFile ∧
      merged.summary = summarizeDiagnostics sorted ∧
      merged.truncated = (files.any (·.2.truncated) ||
        decide (kMaxMergedDiagnosticsPerFile < sorted.length))

/-- The merged file of a path key is there and right, or no owner holds a diagnostic for it. -/
def ViewAt (s : DiagnosticsStore) (key : PathText) : Prop :=
  match s.mergedByPath.lookup key with
  | none => ∀ file ∈ column s.diagnosticsByOwner key, file.2.diagnostics = []
  | some merged => MergedOf (column s.diagnosticsByOwner key) merged

structure Badges (counts : SeveritySummary) (table : Table PathText FileDiagnostics) : Prop where
  errors : counts.errors = total (·.summary.errors) table
  warnings : counts.warnings = total (·.summary.warnings) table
  infos : counts.infos = total (·.summary.infos) table
  hints : counts.hints = total (·.summary.hints) table

/-- One for a truncated file. -/
def truncatedOne (file : FileDiagnostics) : Nat := if file.truncated then 1 else 0

structure Counted (s : DiagnosticsStore) : Prop where
  badges : Badges s.counts s.mergedByPath
  truncated : s.truncatedFileCount = total truncatedOne s.mergedByPath
  free : s.clamped = false

/-- Nothing is under the empty key. -/
structure Keyed (s : DiagnosticsStore) : Prop where
  owners : ∀ row, entryAt s.diagnosticsByOwner row [] = none
  merged : s.mergedByPath.lookup [] = none

structure Consistent (s : DiagnosticsStore) : Prop where
  keyed : Keyed s
  counted : Counted s
  view : ∀ key, ViewAt s key

/-! ### Counting -/

section Counting

variable {s : DiagnosticsStore} {table : Table PathText FileDiagnostics} {key : PathText}
  {file : FileDiagnostics}

theorem removeSummary_badges (found : table.lookup key = some file)
    (badges : Badges s.counts table) :
    Badges (s.removeSummary file.summary).counts (table.erase key) ∧
      (s.removeSummary file.summary).clamped = s.clamped := by
  obtain ⟨errors, warnings, infos, hints⟩ := badges
  rw [total_of_lookup _ found] at errors warnings infos hints
  refine ⟨⟨?_, ?_, ?_, ?_⟩, ?_⟩
  · simp only [removeSummary]
    omega
  · simp only [removeSummary]
    omega
  · simp only [removeSummary]
    omega
  · simp only [removeSummary]
    omega
  · simp only [removeSummary, decide_eq_false (show ¬s.counts.errors < file.summary.errors by omega),
      decide_eq_false (show ¬s.counts.warnings < file.summary.warnings by omega),
      decide_eq_false (show ¬s.counts.infos < file.summary.infos by omega),
      decide_eq_false (show ¬s.counts.hints < file.summary.hints by omega), Bool.or_false]

theorem addSummary_badges (badges : Badges s.counts (table.erase key)) :
    Badges (s.addSummary file.summary).counts (table.insert key file) := by
  obtain ⟨errors, warnings, infos, hints⟩ := badges
  refine ⟨?_, ?_, ?_, ?_⟩
  · rw [total_insert, ← errors]
    exact Nat.add_comm _ _
  · rw [total_insert, ← warnings]
    exact Nat.add_comm _ _
  · rw [total_insert, ← infos]
    exact Nat.add_comm _ _
  · rw [total_insert, ← hints]
    exact Nat.add_comm _ _

theorem badges_absent (absent : table.lookup key = none) {counts : SeveritySummary}
    (badges : Badges counts table) : Badges counts (table.erase key) := by
  obtain ⟨errors, warnings, infos, hints⟩ := badges
  refine ⟨?_, ?_, ?_, ?_⟩
  · rw [total_of_absent _ absent, errors]
  · rw [total_of_absent _ absent, warnings]
  · rw [total_of_absent _ absent, infos]
  · rw [total_of_absent _ absent, hints]

end Counting

/-! ### A rebuild -/

section Rebuild

variable {s : DiagnosticsStore} {key : PathText}

theorem foldl_mergeFile (files : List FileDiagnostics) (merged : FileDiagnostics) :
    (files.foldl mergeFile merged).diagnostics = merged.diagnostics ++ files.flatMap (·.diagnostics) ∧
      (files.foldl mergeFile merged).truncated = (merged.truncated || files.any (·.truncated)) := by
  induction files generalizing merged with
  | nil => simp
  | cons file files ih =>
    obtain ⟨diagnostics, truncated⟩ := ih (mergeFile merged file)
    rw [foldl_cons, diagnostics, truncated]
    simp [mergeFile, Bool.or_assoc]

theorem mergeOwners_eq (s : DiagnosticsStore) (key : PathText) :
    s.mergeOwners key = ((column s.diagnosticsByOwner key).map Prod.snd).foldl mergeFile {} := by
  rw [mergeOwners, column, foldl_map, foldl_filterMap]
  congr 1
  funext merged owner
  cases owner.2.lookup key <;> rfl

theorem mergeOwners_diagnostics (s : DiagnosticsStore) (key : PathText) :
    (s.mergeOwners key).diagnostics =
      (column s.diagnosticsByOwner key).flatMap fun file => file.2.diagnostics := by
  rw [mergeOwners_eq, (foldl_mergeFile _ _).1, flatMap_map]
  rfl

theorem finishMerge_mergedOf (held : (s.mergeOwners key).diagnostics ≠ []) :
    MergedOf (column s.diagnosticsByOwner key) (finishMerge (s.mergeOwners key)) := by
  have perm : (sortDiagnostics (s.mergeOwners key).diagnostics).Perm
      (s.mergeOwners key).diagnostics := perm_sortBy _ _
  have any_ : (s.mergeOwners key).truncated =
      (column s.diagnosticsByOwner key).any (·.2.truncated) := by
    rw [mergeOwners_eq, (foldl_mergeFile _ _).2, any_map]
    rfl
  refine ⟨sortDiagnostics (s.mergeOwners key).diagnostics, ?_, sortBy_pairwise _ _, ?_, ?_, ?_, ?_⟩
  · rw [← mergeOwners_diagnostics]
    exact perm
  · exact fun none_ => held (perm_nil.mp (none_ ▸ perm).symm)
  · rw [finishMerge]
    split
    · rfl
    next short =>
      exact (take_of_length_le (Nat.not_lt.mp short)).symm
  · rw [finishMerge]
    split
    · rfl
    · rfl
  · rw [finishMerge, ← any_]
    split
    next long =>
      rw [decide_eq_true long, Bool.or_true]
    next short =>
      rw [decide_eq_false short, Bool.or_false]

/-- The store with a path's file gone. -/
theorem counted_erase (counted : Counted s) {existing : FileDiagnostics}
    (found : s.mergedByPath.lookup key = some existing) :
    let removed := s.removeSummary existing.summary
    let removed := if existing.truncated then removed.removeTruncated else removed
    Counted (bump { removed with mergedByPath := removed.mergedByPath.erase key }) := by
  obtain ⟨badges, clamped⟩ := removeSummary_badges found counted.badges
  have truncated := counted.truncated
  rw [total_of_lookup truncatedOne found, truncatedOne] at truncated
  cases cut : existing.truncated with
  | false =>
    rw [cut, if_neg Bool.false_ne_true, Nat.zero_add] at truncated
    exact ⟨badges, truncated, clamped.trans counted.free⟩
  | true =>
    rw [cut, if_pos rfl] at truncated
    refine ⟨badges, ?_, ?_⟩
    · change s.truncatedFileCount - 1 = _
      rw [truncated, Nat.add_sub_cancel_left]
      rfl
    · change ((s.removeSummary existing.summary).clamped || decide (s.truncatedFileCount = 0)) = false
      rw [clamped, counted.free, truncated]
      exact decide_eq_false (by omega)

/-- The store with a file for a path that had none. -/
theorem counted_insert (counted : Counted s) (absent : s.mergedByPath.lookup key = none)
    (merged : FileDiagnostics) : let added := s.addSummary merged.summary
    let added := if merged.truncated then added.addTruncated else added
    Counted (bump { added with mergedByPath := added.mergedByPath.insert key merged }) := by
  have badges := @addSummary_badges s s.mergedByPath key merged (badges_absent absent counted.badges)
  have truncated := counted.truncated
  rw [← total_of_absent truncatedOne absent] at truncated
  cases cut : merged.truncated with
  | false =>
    refine ⟨badges, ?_, counted.free⟩
    change s.truncatedFileCount = total truncatedOne (s.mergedByPath.insert key merged)
    rw [total_insert, truncatedOne, cut, truncated]
    exact (Nat.zero_add _).symm
  | true =>
    refine ⟨badges, ?_, counted.free⟩
    change s.truncatedFileCount + 1 = total truncatedOne (s.mergedByPath.insert key merged)
    rw [total_insert, truncatedOne, cut, truncated]
    exact Nat.add_comm _ _

/-- The store with another file for a path. -/
theorem counted_replace (counted : Counted s) {existing : FileDiagnostics}
    (found : s.mergedByPath.lookup key = some existing) (merged : FileDiagnostics) :
    let changed := (s.removeSummary existing.summary).addSummary merged.summary
    let changed :=
      if existing.truncated && !merged.truncated then changed.removeTruncated
      else if !existing.truncated && merged.truncated then changed.addTruncated
      else changed
    Counted (bump { changed with mergedByPath := changed.mergedByPath.insert key merged }) := by
  obtain ⟨removed, clamped⟩ := removeSummary_badges found counted.badges
  have badges := @addSummary_badges _ s.mergedByPath key merged removed
  have truncated := counted.truncated
  rw [total_of_lookup truncatedOne found] at truncated
  have total_ := @total_insert _ _ _ truncatedOne s.mergedByPath key merged
  have free : (s.removeSummary existing.summary).clamped = false := clamped.trans counted.free
  cases before : existing.truncated <;> cases after : merged.truncated <;>
    simp only [truncatedOne, before, after, if_true, if_false, Bool.false_eq_true] at truncated total_ ⊢
  · refine ⟨badges, ?_, free⟩
    change s.truncatedFileCount = total truncatedOne (s.mergedByPath.insert key merged)
    omega
  · refine ⟨badges, ?_, free⟩
    change s.truncatedFileCount + 1 = total truncatedOne (s.mergedByPath.insert key merged)
    omega
  · refine ⟨badges, ?_, ?_⟩
    · change s.truncatedFileCount - 1 = total truncatedOne (s.mergedByPath.insert key merged)
      omega
    · change ((s.removeSummary existing.summary).clamped || decide (s.truncatedFileCount = 0)) = false
      rw [free, decide_eq_false (by omega)]
      rfl
  · refine ⟨badges, ?_, free⟩
    change s.truncatedFileCount = total truncatedOne (s.mergedByPath.insert key merged)
    omega

/-- What a rebuild leaves. -/
structure Rebuilt (s : DiagnosticsStore) (key : PathText) (s' : DiagnosticsStore) : Prop where
  byOwner : s'.diagnosticsByOwner = s.diagnosticsByOwner
  counted : Counted s'
  view : ViewAt s' key
  kept : ∀ other, other ≠ key → s'.mergedByPath.lookup other = s.mergedByPath.lookup other

theorem viewAt_none (gone : s.mergedByPath.lookup key = none)
    (empty : ∀ file ∈ column s.diagnosticsByOwner key, file.2.diagnostics = []) : ViewAt s key := by
  rw [ViewAt, gone]
  exact empty

theorem viewAt_some {merged : FileDiagnostics} (found : s.mergedByPath.lookup key = some merged)
    (right : MergedOf (column s.diagnosticsByOwner key) merged) : ViewAt s key := by
  rw [ViewAt, found]
  exact right

theorem rebuildPath_spec (counted : Counted s) (named : key ≠ []) :
    Rebuilt s key (s.rebuildPath key) := by
  rw [rebuildPath, if_neg named]
  dsimp only
  split
  next none_ =>
    have empty : ∀ file ∈ column s.diagnosticsByOwner key, file.2.diagnostics = [] := by
      rw [mergeOwners_diagnostics] at none_
      exact flatMap_eq_nil_iff.mp none_
    cases found : s.mergedByPath.lookup key with
    | none => exact ⟨rfl, counted, viewAt_none found empty, fun _ _ => rfl⟩
    | some existing =>
      have erased := counted_erase counted found
      dsimp only at erased ⊢
      refine ⟨?_, erased, viewAt_none ?_ ?_, fun other apart => ?_⟩
      · cases existing.truncated <;> rfl
      · cases existing.truncated <;> exact lookup_erase _ _
      · cases existing.truncated <;> exact empty
      · cases existing.truncated <;> exact lookup_erase_ne apart
  next held =>
    have right := finishMerge_mergedOf held
    cases found : s.mergedByPath.lookup key with
    | none =>
      have inserted := counted_insert counted found (finishMerge (s.mergeOwners key))
      dsimp only at inserted ⊢
      refine ⟨?_, inserted, @viewAt_some _ _ (finishMerge (s.mergeOwners key)) ?_ ?_,
        fun other apart => ?_⟩
      · split <;> rfl
      · split <;> exact lookup_insert _
      · split <;> exact right
      · split <;> exact lookup_insert_ne apart
    | some existing =>
      dsimp only
      split
      next same =>
        exact ⟨rfl, counted, viewAt_some (same ▸ found) right, fun _ _ => rfl⟩
      · have replaced := counted_replace counted found (finishMerge (s.mergeOwners key))
        refine ⟨?_, replaced, @viewAt_some _ _ (finishMerge (s.mergeOwners key)) ?_ ?_,
          fun other apart => ?_⟩
        · split
          · rfl
          · split <;> rfl
        · split
          · exact lookup_insert _
          · split <;> exact lookup_insert _
        · split
          · exact right
          · split <;> exact right
        · split
          · exact lookup_insert_ne apart
          · split <;> exact lookup_insert_ne apart

/-- Rebuilds of several paths. -/
theorem foldl_rebuildPath {keys : List PathText} (counted : Counted s) (named : [] ∉ keys) :
    let s' := keys.foldl rebuildPath s
    s'.diagnosticsByOwner = s.diagnosticsByOwner ∧ Counted s' ∧ (∀ key ∈ keys, ViewAt s' key) ∧
      ∀ other, other ∉ keys → s'.mergedByPath.lookup other = s.mergedByPath.lookup other := by
  induction keys generalizing s with
  | nil => exact ⟨rfl, counted, fun _ mem => absurd mem not_mem_nil, fun _ _ => rfl⟩
  | cons key keys ih =>
    obtain ⟨first, rest⟩ := not_or.mp (mt mem_cons.mpr named)
    have rebuilt := rebuildPath_spec counted (Ne.symm first)
    obtain ⟨byOwner, counted', view, kept⟩ := ih rebuilt.counted rest
    refine ⟨byOwner.trans rebuilt.byOwner, counted', fun other mem => ?_, fun other apart => ?_⟩
    · by_cases again : other ∈ keys
      · exact view other again
      · obtain rfl := (mem_cons.mp mem).resolve_right again
        have here := rebuilt.view
        rw [ViewAt] at here ⊢
        rw [foldl_cons, kept other again, byOwner]
        exact here
    · obtain ⟨notKey, notRest⟩ := not_or.mp (mt mem_cons.mpr apart)
      rw [foldl_cons, kept other notRest, rebuilt.kept other notKey]

end Rebuild

/-! ### A change of the index -/

section Sweep

variable {s : DiagnosticsStore}

theorem MergedOf.perm {files others : List (List UInt8 × FileDiagnostics)}
    {merged : FileDiagnostics} (right : MergedOf files merged) (same : files.Perm others) :
    MergedOf others merged := by
  obtain ⟨sorted, perm, ordered, some_, diagnostics, summary, truncated⟩ := right
  refine ⟨sorted, perm.trans (same.flatMap_right _), ordered, some_, diagnostics, summary, ?_⟩
  rw [truncated, same.any_eq]

/-- **Every path whose lists changed is rebuilt**, so the view is right again. -/
theorem sweep_consistent (consistent : Consistent s) {swept : Swept FileDiagnostics}
    (kept : ∀ row key, key ∉ swept.affected →
      entryAt swept.byOwner row key = entryAt s.diagnosticsByOwner row key)
    (named : [] ∉ swept.affected) : Consistent (s.sweep swept).1 := by
  have counted : Counted { s with diagnosticsByOwner := swept.byOwner } :=
    ⟨consistent.counted.badges, consistent.counted.truncated, consistent.counted.free⟩
  obtain ⟨byOwner, counted', view, same⟩ := foldl_rebuildPath counted named
  refine ⟨⟨fun row => ?_, ?_⟩, counted', fun key => ?_⟩
  · rw [sweep, byOwner]
    exact (kept row [] named).trans (consistent.keyed.owners row)
  · exact (same [] named).trans consistent.keyed.merged
  · by_cases touched : key ∈ swept.affected
    · exact view key touched
    · have column_ : (column s.diagnosticsByOwner key).Perm (column swept.byOwner key) :=
        column_perm fun row => (kept row key touched).symm
      have before := consistent.view key
      rw [ViewAt] at before ⊢
      rw [sweep, same key touched, byOwner]
      cases found : s.mergedByPath.lookup key with
      | none =>
        rw [found] at before
        exact fun file mem => before file (column_.mem_iff.mpr mem)
      | some merged =>
        rw [found] at before
        exact before.perm column_

/-- The keys of an owner's entries are not empty. -/
theorem Keyed.named (keyed : Keyed s) {owner : List UInt8}
    {entries : Table PathText FileDiagnostics}
    (found : s.diagnosticsByOwner.lookup owner = some entries) : [] ∉ entries.keys := by
  have none_ := keyed.owners owner
  rw [entryAt, found, Option.bind_some] at none_
  exact fun mem => lookup_eq_none.mp none_ (mem_keys.mp mem)

end Sweep

/-! ### The operations -/

inductive DiagnosticsAction where
  | replaceForOwnerFile (owner : List UInt8) (path : PathText) (diagnostics : List Diagnostic)
  | transformOwnerFile (owner : List UInt8) (path : PathText)
      (transform : Option (SelectionRange → SelectionRange))
  | clearOwner (owner : List UInt8)
  | clearOwnerFile (owner : List UInt8) (path : PathText)
  | retargetPathPrefix (oldPrefix newPrefix : PathText)
  | clearPathPrefix (pathPrefix : PathText)
  | clear

def perform (s : DiagnosticsStore) : DiagnosticsAction → DiagnosticsStore
  | .replaceForOwnerFile owner path diagnostics =>
    (s.replaceForOwnerFile owner path diagnostics).1
  | .transformOwnerFile owner path transform => (s.transformOwnerFile owner path transform).1
  | .clearOwner owner => (s.clearOwner owner).1
  | .clearOwnerFile owner path => (s.clearOwnerFile owner path).1
  | .retargetPathPrefix oldPrefix newPrefix => (s.retargetPathPrefix oldPrefix newPrefix).1
  | .clearPathPrefix pathPrefix => (s.clearPathPrefix pathPrefix).1
  | .clear => s.clear

section Operations

variable {s : DiagnosticsStore}

section

variable (consistent : Consistent s)

include consistent

/-- One entry of one owner written. -/
theorem sweep_insert {owner : List UInt8} {key : PathText} (named : key ≠ [])
    (file : FileDiagnostics) : let entries := (s.diagnosticsByOwner.lookup owner).getD ∅
    Consistent (s.sweep
      ⟨s.diagnosticsByOwner.insert owner (entries.insert key file), [key], true⟩).1 := by
  refine sweep_consistent consistent (fun row other apart => ?_) ?_
  · have other_ : other ≠ key := fun same => apart (mem_singleton.mpr same)
    rw [entryAt_insert]
    split
    next same =>
      subst same
      rw [lookup_insert_ne other_, entryAt]
      cases s.diagnosticsByOwner.lookup row with
      | none => rfl
      | some entries => rfl
    · rfl
  · exact fun mem => named (mem_singleton.mp mem).symm

/-- One entry of one owner dropped, if there is one. -/
theorem sweep_drop {owner : List UInt8} {key : PathText} (named : key ≠ []) (changed : Bool) :
    let entries := (s.diagnosticsByOwner.lookup owner).getD ∅
    Consistent (s.sweep
      ⟨if (entries.erase key).entries.isEmpty then s.diagnosticsByOwner.erase owner
        else s.diagnosticsByOwner.insert owner (entries.erase key),
        if (entries.lookup key).isSome then [key] else [], changed⟩).1 := by
  intro entries
  have here (other : PathText) : entryAt s.diagnosticsByOwner owner other = entries.lookup other := by
    rw [entryAt]
    cases found : s.diagnosticsByOwner.lookup owner with
    | none => rw [show entries = ∅ by simp only [entries, found]; rfl]; rfl
    | some held => rw [show entries = held by simp only [entries, found]; rfl]; rfl
  refine sweep_consistent consistent (fun row other apart => ?_) ?_
  · have left : (entries.erase key).lookup other = entries.lookup other := by
      by_cases same : other = key
      · subst same
        cases held : entries.lookup other with
        | none => exact lookup_erase _ _
        | some file =>
          refine absurd ?_ apart
          rw [held]
          exact mem_singleton_self _
      · exact lookup_erase_ne same
    dsimp only
    split
    next empty =>
      rw [entryAt_erase]
      split
      next same =>
        subst same
        rw [here, ← left, AList.lookup, List.isEmpty_iff.mp empty]
        rfl
      · rfl
    · rw [entryAt_insert]
      split
      next same =>
        subst same
        rw [here, left]
      · rfl
  · cases (entries.lookup key).isSome with
    | true => exact fun mem => named (mem_singleton.mp mem).symm
    | false => exact not_mem_nil

theorem replaceForOwnerFile_consistent (owner : List UInt8) (path : PathText)
    (diagnostics : List Diagnostic) :
    Consistent (s.replaceForOwnerFile owner path diagnostics).1 := by
  rw [replaceForOwnerFile]
  dsimp only
  split
  · exact consistent
  next given =>
    have named := (not_or.mp given).2
    split
    · exact sweep_drop consistent named _
    · split
      · exact consistent
      · exact sweep_insert consistent named _

theorem transformOwnerFile_consistent (owner : List UInt8) (path : PathText)
    (transform : Option (SelectionRange → SelectionRange)) :
    Consistent (s.transformOwnerFile owner path transform).1 := by
  rw [transformOwnerFile.eq_def]
  split
  · exact consistent
  · split
    · exact consistent
    · split
      · exact consistent
      next entries found =>
        dsimp only
        split
        · exact consistent
        next named =>
          split
          · exact consistent
          · split
            · exact consistent
            · have inserted := @sweep_insert _ consistent owner _ named
              rw [found] at inserted
              exact inserted _

theorem clearOwner_consistent (owner : List UInt8) : Consistent (s.clearOwner owner).1 := by
  refine sweep_consistent consistent (fun row key => entryAt_clearOwner row) ?_
  rw [clearOwnerEntries]
  cases found : s.diagnosticsByOwner.lookup owner with
  | none => exact not_mem_nil
  | some entries => exact consistent.keyed.named found

theorem clearOwnerFile_consistent (owner : List UInt8) (path : PathText) :
    Consistent (s.clearOwnerFile owner path).1 := by
  refine sweep_consistent consistent (fun row key => entryAt_clearOwnerFile row) ?_
  rw [clearOwnerFileEntry]
  split
  · exact not_mem_nil
  next given =>
    split
    · exact not_mem_nil
    · split
      · exact not_mem_nil
      · exact fun mem => (not_or.mp given).2 (mem_singleton.mp mem).symm

end

theorem mem_keys_of_mem_keysUnder {Entry : Type} {pathOf : Entry → PathText} {under key : PathText}
    {entries : Table PathText Entry} (mem : key ∈ keysUnder pathOf under entries) :
    key ∈ entries.keys := by
  obtain ⟨entry, among, rfl⟩ := mem_map.mp mem
  exact mem_map_of_mem (mem_filter.mp among).1

section

variable (consistent : Consistent s)

include consistent

theorem clearPathPrefix_consistent (pathPrefix : PathText) :
    Consistent (s.clearPathPrefix pathPrefix).1 := by
  refine sweep_consistent consistent (fun row key => entryAt_clearUnderPrefix row) ?_
  rw [clearEntriesUnderPrefix]
  split
  · exact not_mem_nil
  · intro mem
    obtain ⟨owner, among, mem⟩ := mem_flatMap.mp (mem_affectedOnce.mp mem)
    exact consistent.keyed.named (Option.mem_def.mp (mem_dlookup
      s.diagnosticsByOwner.nodupKeys among)) (mem_keys_of_mem_keysUnder mem)

theorem retargetPathPrefix_consistent (oldPrefix newPrefix : PathText) :
    Consistent (s.retargetPathPrefix oldPrefix newPrefix).1 := by
  refine sweep_consistent consistent (fun row key => entryAt_retarget row) ?_
  rw [retargetEntriesUnderPrefix]
  split
  · exact not_mem_nil
  · intro mem
    obtain ⟨owner, among, mem⟩ := mem_flatMap.mp (mem_affectedOnce.mp mem)
    obtain ⟨move, moves, mem⟩ := mem_flatMap.mp mem
    obtain ⟨entry, held, made⟩ := mem_filterMap.mp moves
    split at made
    · dsimp only at made
      split at made
      · exact absurd made (Option.some_ne_none move).symm
      next named =>
        obtain rfl := Option.some.inj made
        rcases mem_cons.mp mem with old | mem
        · refine consistent.keyed.named (Option.mem_def.mp (mem_dlookup
            s.diagnosticsByOwner.nodupKeys among)) ?_
          rw [old]
          exact mem_map_of_mem held
        · exact named (mem_singleton.mp mem).symm
    · exact absurd made (Option.some_ne_none move).symm

theorem clear_consistent : Consistent s.clear := by
  rw [clear]
  split
  · exact consistent
  · refine ⟨⟨fun row => rfl, rfl⟩, ⟨⟨rfl, rfl, rfl, rfl⟩, rfl, consistent.counted.free⟩, fun key => ?_⟩
    exact viewAt_none rfl fun _ mem => absurd mem not_mem_nil

theorem perform_consistent (action : DiagnosticsAction) : Consistent (s.perform action) := by
  cases action with
  | replaceForOwnerFile owner path diagnostics =>
    exact replaceForOwnerFile_consistent consistent owner path diagnostics
  | transformOwnerFile owner path transform =>
    exact transformOwnerFile_consistent consistent owner path transform
  | clearOwner owner => exact clearOwner_consistent consistent owner
  | clearOwnerFile owner path => exact clearOwnerFile_consistent consistent owner path
  | retargetPathPrefix oldPrefix newPrefix =>
    exact retargetPathPrefix_consistent consistent oldPrefix newPrefix
  | clearPathPrefix pathPrefix => exact clearPathPrefix_consistent consistent pathPrefix
  | clear => exact clear_consistent consistent

end

end Operations

/-! ### Runs -/

/-- What the owners hold for a path. -/
def held (s : DiagnosticsStore) (key : PathText) : List PublishedDiagnostic :=
  (column s.diagnosticsByOwner key).flatMap fun file => file.2.diagnostics

theorem run_consistent (actions : List DiagnosticsAction) :
    Consistent (actions.foldl perform {}) := by
  have first : Consistent {} :=
    ⟨⟨fun _ => rfl, rfl⟩, ⟨⟨rfl, rfl, rfl, rfl⟩, rfl, rfl⟩,
      fun _ => viewAt_none rfl fun _ mem => absurd mem not_mem_nil⟩
  generalize ({} : DiagnosticsStore) = s at first
  induction actions generalizing s with
  | nil => exact first
  | cons action actions ih => exact ih _ (perform_consistent first action)

theorem total_truncatedOne (table : Table PathText FileDiagnostics) :
    total truncatedOne table = table.entries.countP (·.2.truncated) := by
  rw [total]
  induction table.entries with
  | nil => rfl
  | cons entry entries ih =>
    rw [map_cons, sum_cons, countP_cons, ih, truncatedOne, Nat.add_comm]

/-- **Over every run** the merged list of a path is what its owners hold, sorted and cut at the cap; it
is there where they hold something; the badges are the sums of the merged counts, the truncated files
are counted, and no counter lost more than it had. -/
theorem diagnosticsConsistency (actions : List DiagnosticsAction) :
    let s := actions.foldl perform {}
    (∀ key merged, s.mergedByPath.lookup key = some merged →
      ∃ sorted, sorted.Perm (s.held key) ∧ sorted.Pairwise (fun a b => a.rank ≤ b.rank) ∧
        merged.diagnostics = sorted.take kMaxMergedDiagnosticsPerFile ∧
        merged.summary = summarizeDiagnostics sorted) ∧
      (∀ key, (s.mergedByPath.lookup key).isSome = true ↔ s.held key ≠ []) ∧
      s.counts.errors = (s.mergedByPath.entries.map (·.2.summary.errors)).sum ∧
      s.counts.warnings = (s.mergedByPath.entries.map (·.2.summary.warnings)).sum ∧
      s.counts.infos = (s.mergedByPath.entries.map (·.2.summary.infos)).sum ∧
      s.counts.hints = (s.mergedByPath.entries.map (·.2.summary.hints)).sum ∧
      s.truncatedFileCount = s.mergedByPath.entries.countP (·.2.truncated) ∧
      s.clamped = false := by
  intro s
  have consistent : Consistent s := run_consistent actions
  obtain ⟨badges, truncated, free⟩ := consistent.counted
  refine ⟨fun key merged found => ?_, fun key => ?_, badges.errors, badges.warnings, badges.infos,
    badges.hints, truncated.trans (total_truncatedOne _), free⟩
  · have view := consistent.view key
    rw [ViewAt, found] at view
    obtain ⟨sorted, perm, ordered, -, diagnostics, summary, -⟩ := view
    exact ⟨sorted, perm, ordered, diagnostics, summary⟩
  · have view := consistent.view key
    rw [ViewAt] at view
    cases found : s.mergedByPath.lookup key with
    | none =>
      rw [found] at view
      exact iff_of_false Bool.false_ne_true fun some_ => some_ (flatMap_eq_nil_iff.mpr view)
    | some merged =>
      rw [found] at view
      obtain ⟨sorted, perm, -, some_, -⟩ := view
      refine iff_of_true rfl fun none_ => some_ (perm_nil.mp ?_)
      exact (show sorted.Perm [] from none_ ▸ perm)

end Microide.Editor.DiagnosticsStore
