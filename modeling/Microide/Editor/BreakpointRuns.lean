/-
Runs of the breakpoint store.

Every operation but `ReplaceAll` keeps the store as its binary searches need it. `ReplaceAll`
sorts what it is given and merges nothing, so it does exactly where no file it keeps has two
breakpoints on one line.

**Main results.** `perform_wellKept`: the operations; `replaceAll_wellKept_iff`: the bulk load;
`followsText`: what a shift moves.
-/

import Microide.Editor.BreakpointStore

namespace Microide.Editor

open List Lib Text Util Breakpoint AList


/-! ### The breakpoints of one file -/

/-- Strictly increasing lines. -/
def StrictLines (breakpoints : List Breakpoint) : Prop :=
  (breakpoints.map (·.line)).Pairwise (· < ·)

variable {bps : List Breakpoint}

theorem StrictLines.of_map_eq {bps' : List Breakpoint} (strict : StrictLines bps)
    (same : bps'.map (·.line) = bps.map (·.line)) : StrictLines bps' := by
  rw [StrictLines, same]
  exact strict

theorem map_line_modify {f : Breakpoint → Breakpoint} (keeps : ∀ bp, (f bp).line = bp.line)
    (bps : List Breakpoint) (i : Nat) : (bps.modify i f).map (·.line) = bps.map (·.line) := by
  induction bps generalizing i with
  | nil => cases i <;> rfl
  | cons bp bps ih =>
    cases i with
    | zero => simp [keeps]
    | succ i => simp [ih]

/-- A search of strictly increasing lines cuts them. -/
theorem lowerBoundLine_cut (strict : StrictLines bps) (line : Nat) :
    ∃ before rest, bps = before ++ rest ∧ lowerBoundLine bps line = before.length ∧
      (∀ bp ∈ before, bp.line < line) ∧ ∀ bp ∈ rest, line ≤ bp.line := by
  have ordered : bps.Pairwise fun a b => decide (b.line < line) → decide (a.line < line) := by
    refine (pairwise_map.mp strict).imp ?_
    intro a b rises below
    simp only [decide_eq_true_eq] at below ⊢
    omega
  obtain ⟨before, rest, cut, found, passing, failing⟩ := exists_cut ordered
  refine ⟨before, rest, cut, found, fun bp mem => ?_, fun bp mem => ?_⟩
  · simpa using passing bp mem
  · simpa using failing bp mem

variable {found line : Nat}

theorem findLine_some (h : findLine bps line = some found) :
    ∃ bp, bps[found]? = some bp ∧ bp.line = line := by
  unfold findLine at h
  dsimp only at h
  split at h
  next bp at_ =>
    split at h
    · obtain rfl := Option.some.inj h
      exact ⟨bp, at_, ‹_›⟩
    · exact nomatch h
  · exact nomatch h

theorem findLine_ne_nil (h : findLine bps line = some found) : bps ≠ [] := by
  rintro rfl
  obtain ⟨bp, absurd, -⟩ := findLine_some h
  exact nomatch absurd

theorem findLine_none (strict : StrictLines bps) (h : findLine bps line = none) :
    ∀ bp ∈ bps, bp.line ≠ line := by
  obtain ⟨before, rest, rfl, found, below, above⟩ := lowerBoundLine_cut strict line
  intro bp mem same
  rcases mem_append.mp mem with mem | mem
  · exact absurd same (Nat.ne_of_lt (below bp mem))
  · obtain ⟨first, more, rfl⟩ := exists_cons_of_ne_nil (ne_nil_of_mem mem)
    have low := above first mem_cons_self
    have hit : first.line = line := by
      rcases mem_cons.mp mem with rfl | mem
      · exact same
      · have rises := (pairwise_append.mp (pairwise_map.mp strict)).2.1
        have := rel_of_pairwise_cons rises mem
        omega
    unfold findLine at h
    dsimp only at h
    rw [found, getElem?_append_right (Nat.le_refl _), Nat.sub_self] at h
    simp [hit] at h

theorem strict_insertAt (strict : StrictLines bps) {bp : Breakpoint}
    (absent : findLine bps bp.line = none) :
    StrictLines (insertAt bps (lowerBoundLine bps bp.line) bp) := by
  have missing := findLine_none strict absent
  obtain ⟨before, rest, rfl, found, below, above⟩ := lowerBoundLine_cut strict bp.line
  obtain ⟨first, second, across⟩ := pairwise_append.mp (pairwise_map.mp strict)
  rw [insertAt, found, take_left, drop_left]
  refine pairwise_map.mpr (pairwise_append.mpr ⟨first, ?_, ?_⟩)
  · refine pairwise_cons.mpr ⟨fun b mem => ?_, second⟩
    have := above b mem
    have := missing b (mem_append_right _ mem)
    omega
  · intro a ha b hb
    rcases mem_cons.mp hb with rfl | hb
    · exact below a ha
    · exact across a ha b hb

theorem insertAt_ne_nil (bps : List Breakpoint) (i : Nat) (bp : Breakpoint) :
    insertAt bps i bp ≠ [] := by
  simp [insertAt]

theorem strict_eraseIdx (strict : StrictLines bps) (i : Nat) : StrictLines (bps.eraseIdx i) :=
  strict.sublist ((eraseIdx_sublist bps i).map _)

theorem modify_ne_nil (some_ : bps ≠ []) (i : Nat) (f : Breakpoint → Breakpoint) :
    bps.modify i f ≠ [] := by
  rw [← length_pos_iff] at some_ ⊢
  rwa [length_modify]

theorem map_line_verify (results : List VerifiedBreakpoint) (bps : List Breakpoint) :
    (results.foldl verifyLine bps).map (·.line) = bps.map (·.line) := by
  induction results generalizing bps with
  | nil => rfl
  | cons result results ih =>
    rw [foldl_cons, ih, verifyLine]
    split
    · rfl
    · split
      · refine map_line_modify ?_ ..
        exact fun _ => rfl
      · rfl

theorem strict_shiftBreakpoints (edit : AppliedEdit) (bps : List Breakpoint) :
    StrictLines (shiftBreakpoints edit bps) :=
  pairwise_map.mpr (pairwise_lt_destutter line (sortBy_pairwise line _))

theorem shiftBreakpoints_ne_nil (edit : AppliedEdit) (some_ : bps ≠ []) :
    shiftBreakpoints edit bps ≠ [] := by
  rw [shiftBreakpoints, Ne, destutter_eq_nil]
  intro empty
  have perm := perm_sortBy line
    (bps.map fun bp => { bp with line := shiftedLine edit bp.line })
  rw [empty] at perm
  exact some_ (map_eq_nil_iff.mp perm.nil_eq.symm)

variable {e : Sigma fun _ : PathText => FileBreakpoints}

namespace BreakpointStore

/-! ### Entries -/

/-- A well kept store, but that the file under `key` may have no breakpoints. -/
def WellKeptBut (key : PathText) (s : BreakpointStore) : Prop :=
  ∀ e ∈ s.byPath.entries, StrictLines e.2.breakpoints ∧ (e.1 ≠ key → e.2.breakpoints ≠ [])

/-- Each file's breakpoints in strictly increasing lines, and no empty list. -/
def WellKept (s : BreakpointStore) : Prop :=
  ∀ e ∈ s.byPath.entries, StrictLines e.2.breakpoints ∧ e.2.breakpoints ≠ []

theorem breakpointsOf_mem {s : BreakpointStore} (mem : e ∈ s.byPath.entries) :
    s.breakpointsOf e.1 = e.2.breakpoints := by
  have found : s.byPath.lookup e.1 = some e.2 := mem_lookup_iff.mpr mem
  rw [breakpointsOf, found]

theorem exists_mem_of_lookup {s : BreakpointStore} {key : PathText} {file : FileBreakpoints}
    (found : s.byPath.lookup key = some file) :
    (⟨key, file⟩ : Sigma fun _ : PathText => FileBreakpoints) ∈ s.byPath.entries :=
  mem_lookup_iff.mp found

theorem exists_mem_of_breakpointsOf {s : BreakpointStore} {key : PathText}
    (some_ : s.breakpointsOf key ≠ []) :
    ∃ file, (⟨key, file⟩ : Sigma fun _ : PathText => FileBreakpoints) ∈ s.byPath.entries := by
  unfold breakpointsOf at some_
  split at some_
  · exact ⟨_, exists_mem_of_lookup ‹_›⟩
  · exact absurd rfl some_

theorem mem_mapEntries {s : BreakpointStore} {f : PathText → FileBreakpoints → FileBreakpoints} :
    e ∈ (s.mapEntries f).byPath.entries ↔ ∃ e' ∈ s.byPath.entries, ⟨e'.1, f e'.1 e'.2⟩ = e :=
  mem_map

theorem breakpointsOf_updateFile {s : BreakpointStore} {key : PathText}
    {f : List Breakpoint → List Breakpoint}
    (present : ∃ file, (⟨key, file⟩ : Sigma fun _ : PathText => FileBreakpoints) ∈
      s.byPath.entries) : (s.updateFile key f).breakpointsOf key = f (s.breakpointsOf key) := by
  obtain ⟨file, mem⟩ := present
  have after : (⟨key, { file with breakpoints := f file.breakpoints }⟩ :
      Sigma fun _ : PathText => FileBreakpoints) ∈ (s.updateFile key f).byPath.entries := by
    refine mem_mapEntries.mpr ⟨_, mem, ?_⟩
    rw [if_pos rfl]
  rw [breakpointsOf_mem mem, breakpointsOf_mem after]

theorem WellKept.but {s : BreakpointStore} (kept : s.WellKept) (key : PathText) :
    s.WellKeptBut key :=
  fun e mem => ⟨(kept e mem).1, fun _ => (kept e mem).2⟩

theorem WellKept.strict {s : BreakpointStore} (kept : s.WellKept) (key : PathText) :
    StrictLines (s.breakpointsOf key) := by
  unfold breakpointsOf
  split
  · exact (kept _ (exists_mem_of_lookup ‹_›)).1
  · exact .nil

section But

variable {s : BreakpointStore} {key : PathText}

theorem WellKeptBut.strict (kept : s.WellKeptBut key) : StrictLines (s.breakpointsOf key) := by
  unfold breakpointsOf
  split
  · exact (kept _ (exists_mem_of_lookup ‹_›)).1
  · exact .nil

theorem WellKeptBut.wellKept (kept : s.WellKeptBut key) (some_ : s.breakpointsOf key ≠ []) :
    s.WellKept := by
  intro e mem
  refine ⟨(kept e mem).1, ?_⟩
  by_cases same : e.1 = key
  · rw [← breakpointsOf_mem mem, same]
    exact some_
  · exact (kept e mem).2 same

theorem WellKept.bump (kept : s.WellKept) : s.bump.WellKept := kept

/-- Changing the breakpoints of the file left open closes the store, if the file has some. -/
theorem WellKeptBut.updateFile (kept : s.WellKeptBut key) {f : List Breakpoint → List Breakpoint}
    (strict : StrictLines (f (s.breakpointsOf key))) (some_ : f (s.breakpointsOf key) ≠ []) :
    (s.updateFile key f).WellKept := by
  intro e mem
  obtain ⟨e', inStore, rfl⟩ := mem_mapEntries.mp mem
  split
  next same =>
    subst same
    rw [breakpointsOf_mem inStore] at strict some_
    exact ⟨strict, some_⟩
  next other =>
    exact ⟨(kept e' inStore).1, (kept e' inStore).2 other⟩

/-- A breakpoint put on a line that has none. -/
theorem WellKeptBut.insertAt (kept : s.WellKeptBut key) (bp : Breakpoint)
    (absent : findLine (s.breakpointsOf key) bp.line = none) :
    (s.updateFile key fun bps => Editor.insertAt bps (lowerBoundLine bps bp.line) bp).WellKept := by
  refine kept.updateFile (strict_insertAt kept.strict absent) ?_
  exact insertAt_ne_nil _ _ _

theorem WellKept.erase (kept : s.WellKept) (key : PathText) :
    WellKept { s with byPath := s.byPath.erase key } :=
  fun e mem => kept e ((kerase_sublist key _).subset mem)

theorem WellKept.modify (kept : s.WellKept)
    (is_found : findLine (s.breakpointsOf key) line = some found) {f : Breakpoint → Breakpoint}
    (keeps : ∀ bp, (f bp).line = bp.line) : (s.updateFile key (·.modify found f)).WellKept :=
  (kept.but key).updateFile (f := (·.modify found f))
    ((kept.strict key).of_map_eq (map_line_modify keeps ..))
    (modify_ne_nil (findLine_ne_nil is_found) _ _)

theorem WellKept.eraseAt (kept : s.WellKept) (present : s.breakpointsOf key ≠ []) :
    (s.eraseAt key found).WellKept := by
  have left := breakpointsOf_updateFile (f := (·.eraseIdx found)) (exists_mem_of_breakpointsOf present)
  unfold BreakpointStore.eraseAt
  dsimp only
  split
  · intro e mem
    have other : e.1 ≠ key := by
      rintro rfl
      have left : e.1 ∈ (s.updateFile e.1 (·.eraseIdx found)).byPath.erase e.1 :=
        mem_keys_of_mem mem
      exact (mem_erase.mp left).1 rfl
    obtain ⟨e', inStore, rfl⟩ := mem_mapEntries.mp ((kerase_sublist key _).subset mem)
    rw [if_neg other]
    exact kept e' inStore
  next some_ =>
    rw [left] at some_
    exact (kept.but key).updateFile (f := (·.eraseIdx found))
      (strict_eraseIdx (kept.strict key) found) some_

end But

/-- The entry made ready for an insertion is the only one that may be empty. -/
theorem WellKept.ensureFileEntry {s s' : BreakpointStore} {path key : PathText} (kept : s.WellKept)
    (made : s.ensureFileEntry path = some (key, s')) : s'.WellKeptBut key ∧
      ∃ file, (⟨key, file⟩ : Sigma fun _ : PathText => FileBreakpoints) ∈ s'.byPath.entries := by
  unfold BreakpointStore.ensureFileEntry at made
  dsimp only at made
  split at made
  · exact nomatch made
  · split at made
    next absent =>
      obtain ⟨rfl, rfl⟩ := Prod.mk.inj (Option.some.inj made)
      have missing := lookup_eq_none.mp absent
      rw [WellKeptBut, entries_insert_of_notMem missing]
      refine ⟨fun e mem => ?_, _, mem_cons_self⟩
      rcases mem_cons.mp mem with rfl | mem
      · exact ⟨.nil, fun other => absurd rfl other⟩
      · exact kept.but _ e mem
    next file found =>
      split at made
      · obtain ⟨rfl, rfl⟩ := Prod.mk.inj (Option.some.inj made)
        refine ⟨fun e mem => ?_, _, mem_mapEntries.mpr ⟨_, exists_mem_of_lookup found, rfl⟩⟩
        obtain ⟨e', inStore, rfl⟩ := mem_mapEntries.mp mem
        split
        · exact kept.but _ e' inStore
        · exact kept.but _ e' inStore
      · obtain ⟨rfl, rfl⟩ := Prod.mk.inj (Option.some.inj made)
        exact ⟨kept.but _, file, exists_mem_of_lookup found⟩

/-! ### Operations -/

theorem toggle_wellKept {s : BreakpointStore} (kept : s.WellKept) (path : PathText) (line : Nat) :
    (s.toggle path line).2.WellKept := by
  unfold toggle
  split
  · exact kept
  next key s' made =>
    obtain ⟨open_, present⟩ := kept.ensureFileEntry made
    split
    next found is_found =>
      have some_ := findLine_ne_nil is_found
      exact (open_.wellKept some_).eraseAt some_
    next absent =>
      exact (open_.insertAt { line := line } absent).bump

theorem set_wellKept {s : BreakpointStore} (kept : s.WellKept) (path : PathText) (line : Nat)
    (enabled : Bool) : (s.set path line enabled).WellKept := by
  unfold BreakpointStore.set
  split
  · exact kept
  next key s' made =>
    obtain ⟨open_, present⟩ := kept.ensureFileEntry made
    split
    next found is_found =>
      have closed := open_.wellKept (findLine_ne_nil is_found)
      split
      · exact closed
      · refine closed.modify is_found ?_
        exact fun _ => rfl
    next absent =>
      exact (open_.insertAt { line := line, enabled := enabled } absent).bump

theorem toggleEnabled_wellKept {s : BreakpointStore} (kept : s.WellKept) (path : PathText)
    (line : Nat) : (s.toggleEnabled path line).2.WellKept := by
  unfold toggleEnabled
  split
  next found is_found =>
    refine kept.modify is_found ?_
    exact fun _ => rfl
  · exact kept

/-- The breakpoint found or created is in the file under its key. -/
theorem WellKept.mutableBreakpoint {s s' : BreakpointStore} {path key : PathText}
    (kept : s.WellKept) (made : s.mutableBreakpoint path line = some (key, found, s')) :
    s'.WellKept ∧ s'.breakpointsOf key ≠ [] := by
  unfold BreakpointStore.mutableBreakpoint at made
  split at made
  · exact nomatch made
  next key' s'' entry =>
    obtain ⟨open_, present⟩ := kept.ensureFileEntry entry
    split at made
    next is_found =>
      obtain ⟨rfl, rest⟩ := Prod.mk.inj (Option.some.inj made)
      obtain ⟨rfl, rfl⟩ := Prod.mk.inj rest
      have some_ := findLine_ne_nil is_found
      exact ⟨open_.wellKept some_, some_⟩
    next absent =>
      obtain ⟨rfl, rest⟩ := Prod.mk.inj (Option.some.inj made)
      obtain ⟨rfl, rfl⟩ := Prod.mk.inj rest
      constructor
      · exact open_.insertAt { line := line } absent
      · rw [breakpointsOf_updateFile present]
        exact insertAt_ne_nil _ _ _

theorem setOptionalField_wellKept (field : OptionalField) {s : BreakpointStore} (kept : s.WellKept)
    (path : PathText) (line : Nat) (value : Option (List UInt8)) :
    (s.setOptionalField field path line value).WellKept := by
  unfold setOptionalField
  split
  · exact kept
  · split
    · exact kept
    next key found s' made =>
      obtain ⟨closed, some_⟩ := kept.mutableBreakpoint made
      split
      · exact closed
      · exact (closed.but key).updateFile (f := (·.modify found (field.write value)))
          ((closed.strict key).of_map_eq (map_line_modify (field.line_write value) ..))
          (modify_ne_nil some_ _ _)

theorem remove_wellKept {s : BreakpointStore} (kept : s.WellKept) (path : PathText) (line : Nat) :
    (s.remove path line).WellKept := by
  unfold remove
  split
  next found is_found =>
    exact kept.eraseAt (findLine_ne_nil is_found)
  · exact kept

theorem clearFile_wellKept {s : BreakpointStore} (kept : s.WellKept) (path : PathText) :
    (s.clearFile path).WellKept := by
  unfold clearFile
  split
  · exact (kept.erase _).bump
  · exact kept

theorem clear_wellKept {s : BreakpointStore} (kept : s.WellKept) : s.clear.WellKept := by
  unfold clear
  split
  · exact kept
  · exact fun _ mem => nomatch mem

theorem applyVerification_wellKept {s : BreakpointStore} (kept : s.WellKept) (path : PathText)
    (results : List VerifiedBreakpoint) : (s.applyVerification path results).WellKept := by
  unfold applyVerification
  split
  next file found =>
    have mem := exists_mem_of_lookup found
    have some_ : s.breakpointsOf (pathKey path) ≠ [] := by
      rw [breakpointsOf_mem mem]
      exact (kept _ mem).2
    have lines := map_line_verify results (s.breakpointsOf (pathKey path))
    refine (kept.but _).updateFile (f := fun bps => results.foldl verifyLine bps)
      ((kept.strict _).of_map_eq lines) ?_
    intro empty
    rw [empty] at lines
    exact some_ (map_eq_nil_iff.mp lines.symm)
  · exact kept

theorem applyEventAt_wellKept {s : BreakpointStore} (kept : s.WellKept) (key : PathText)
    (result : VerifiedBreakpoint) : (s.applyEventAt key result).WellKept := by
  unfold applyEventAt
  split
  next found target =>
    have some_ : s.breakpointsOf key ≠ [] := by
      intro empty
      rw [empty, eventTarget] at target
      simp at target
    have keeps : ∀ bp, (bindEvent result bp).line = bp.line := fun _ => rfl
    exact (kept.but key).updateFile (f := (·.modify found (bindEvent result)))
      ((kept.strict key).of_map_eq (map_line_modify keeps ..)) (modify_ne_nil some_ _ _)
  · exact kept

theorem applyBreakpointEvent_wellKept {s : BreakpointStore} (kept : s.WellKept) (path : PathText)
    (result : VerifiedBreakpoint) : (s.applyBreakpointEvent path result).WellKept := by
  unfold applyBreakpointEvent
  split
  · exact applyEventAt_wellKept kept _ _
  · split
    · exact applyEventAt_wellKept kept _ _
    · exact kept

theorem resetVerification_wellKept {s : BreakpointStore} (kept : s.WellKept) :
    s.resetVerification.WellKept := by
  unfold resetVerification
  split
  · refine WellKept.bump ?_
    intro e mem
    obtain ⟨e', inStore, rfl⟩ := mem_mapEntries.mp mem
    obtain ⟨strict, some_⟩ := kept e' inStore
    refine ⟨strict.of_map_eq ?_, ?_⟩
    · rw [map_map]
      rfl
    · exact fun empty => some_ (map_eq_nil_iff.mp empty)
  · exact kept

theorem shiftForAppliedEdit_wellKept {s : BreakpointStore} (kept : s.WellKept) (path : PathText)
    (edit : AppliedEdit) : (s.shiftForAppliedEdit path edit).2.WellKept := by
  unfold shiftForAppliedEdit
  dsimp only
  split
  · exact kept
  next some_ =>
    split
    · exact kept
    · split
      · exact kept
      · exact (kept.but _).updateFile (strict_shiftBreakpoints edit _)
          (shiftBreakpoints_ne_nil edit some_)

/-! ### The bulk load -/

/-- The file `ReplaceAll` keeps under a key: the last one with breakpoints. -/
def lastFile (files : List FileBreakpoints) (key : PathText) : Option FileBreakpoints :=
  (files.filter fun file => file.breakpoints ≠ [] ∧ fileKey file = key).getLast?

/-- No file that is kept has two breakpoints on one line. -/
def DistinctLines (files : List FileBreakpoints) : Prop :=
  ∀ key ≠ [], ∀ file, lastFile files key = some file → (file.breakpoints.map (·.line)).Nodup

theorem lastFile_concat (files : List FileBreakpoints) (file : FileBreakpoints) (key : PathText) :
    lastFile (files ++ [file]) key =
      if file.breakpoints ≠ [] ∧ fileKey file = key then some file else lastFile files key := by
  split
  next counts =>
    simp [lastFile, counts]
  next skipped =>
    simp only [lastFile, filter_append, filter_cons]
    simp [skipped]

theorem lookup_load (files : List FileBreakpoints) {key : PathText} (named : key ≠ []) :
    (files.foldl loadFile ∅).lookup key = (lastFile files key).map loadedFile := by
  induction files using List.reverseRecOn with
  | nil => rfl
  | append_singleton files file ih =>
    rw [foldl_concat, loadFile, lastFile_concat]
    by_cases skipped : fileKey file = [] ∨ file.breakpoints = []
    · have notLast : ¬ (file.breakpoints ≠ [] ∧ fileKey file = key) := by
        rintro ⟨some_, rfl⟩
        exact skipped.elim named some_
      rw [if_pos skipped, if_neg notLast, ih]
    · rw [if_neg skipped]
      rw [not_or] at skipped
      by_cases same : fileKey file = key
      · subst same
        rw [lookup_insert, if_pos ⟨skipped.2, rfl⟩]
        rfl
      · rw [lookup_insert_ne (Ne.symm same), if_neg fun h => same h.2, ih]

theorem key_ne_nil_of_load {files : List FileBreakpoints}
    (mem : e ∈ (files.foldl loadFile ∅).entries) : e.1 ≠ [] := by
  induction files using List.reverseRecOn with
  | nil => exact nomatch mem
  | append_singleton files file ih =>
    rw [foldl_concat, loadFile] at mem
    split at mem
    · exact ih mem
    next kept =>
      rcases mem_cons.mp mem with rfl | mem
      · exact fun unnamed => kept (.inl unnamed)
      · exact ih ((kerase_sublist _ _).subset mem)

theorem strict_loadedFile_iff (file : FileBreakpoints) :
    StrictLines (loadedFile file).breakpoints ↔ (file.breakpoints.map (·.line)).Nodup := by
  have lines : ((loadedFile file).breakpoints.map (·.line)) =
      (sortBy line file.breakpoints).map (·.line) := by
    rw [loadedFile, map_map]
    rfl
  have perm := (perm_sortBy line file.breakpoints).map (·.line)
  rw [StrictLines, lines, ← perm.nodup_iff]
  have sorted := pairwise_map.mpr (sortBy_pairwise line file.breakpoints)
  constructor
  · exact fun strict => strict.imp fun h => Nat.ne_of_lt h
  · exact fun distinct => (sorted.and distinct).imp fun h => Nat.lt_of_le_of_ne h.1 h.2

theorem replaceAll_wellKept_iff (s : BreakpointStore) (files : List FileBreakpoints) :
    (s.replaceAll files).WellKept ↔ DistinctLines files := by
  constructor
  · intro kept key named file last
    have found := lookup_load files named
    rw [last] at found
    exact (strict_loadedFile_iff file).mp (kept _ (mem_lookup_iff.mp found)).1
  · intro distinct e mem
    have named := key_ne_nil_of_load mem
    have found := (lookup_load files named).symm.trans (mem_lookup_iff.mpr mem)
    obtain ⟨file, last, loaded⟩ := Option.map_eq_some_iff.mp found
    rw [← loaded]
    refine ⟨(strict_loadedFile_iff file).mpr (distinct e.1 named file last), ?_⟩
    have kept := (mem_filter.mp (mem_of_getLast? last)).2
    simp only [decide_eq_true_eq] at kept
    intro empty
    have sorted := map_eq_nil_iff.mp empty
    have perm := perm_sortBy line file.breakpoints
    rw [sorted] at perm
    exact kept.1 perm.nil_eq.symm

/-- Every operation keeps a well kept store so; the bulk load only where it is given one line
each. -/
theorem perform_wellKept {s : BreakpointStore} (kept : s.WellKept) (op : Op)
    (distinct : ∀ files, op = .replaceAll files → DistinctLines files) :
    (s.perform op).WellKept := by
  cases op with
  | toggle path line => exact toggle_wellKept kept path line
  | set path line enabled => exact set_wellKept kept path line enabled
  | toggleEnabled path line => exact toggleEnabled_wellKept kept path line
  | setCondition path line value => exact setOptionalField_wellKept _ kept path line value
  | setHitCondition path line value => exact setOptionalField_wellKept _ kept path line value
  | setLogMessage path line value => exact setOptionalField_wellKept _ kept path line value
  | remove path line => exact remove_wellKept kept path line
  | clearFile path => exact clearFile_wellKept kept path
  | clear => exact clear_wellKept kept
  | applyVerification path results => exact applyVerification_wellKept kept path results
  | applyBreakpointEvent path result => exact applyBreakpointEvent_wellKept kept path result
  | resetVerification => exact resetVerification_wellKept kept
  | shiftForAppliedEdit path edit => exact shiftForAppliedEdit_wellKept kept path edit
  | replaceAll files => exact (replaceAll_wellKept_iff s files).mpr (distinct files rfl)

/-! ### Text -/

/-- A shift moves every breakpoint outside the edited lines to the line its text is on. -/
def FollowsText (s : BreakpointStore) : Prop :=
  ∀ (path : PathText) (edit : AppliedEdit) (text : List UInt8),
    edit.lastLine < (text.splitOn lf).length →
    ∀ bp ∈ s.breakpointsOf (pathKey path), (bp.line < edit.firstLine ∨ edit.lastLine < bp.line) →
      ∃ line, { bp with line := line } ∈
          (s.shiftForAppliedEdit path edit).2.breakpointsOf (pathKey path) ∧
        (edit.after (text.splitOn lf))[line]? = (text.splitOn lf)[bp.line]?

theorem shiftedLine_text (edit : AppliedEdit) (text : List UInt8)
    (inside : edit.lastLine < (text.splitOn lf).length)
    (outside : line < edit.firstLine ∨ edit.lastLine < line) :
    (edit.after (text.splitOn lf))[shiftedLine edit line]? = (text.splitOn lf)[line]? := by
  have ordered := edit.firstLine_le_lastLine
  have plain : ∀ l ∈ text.splitOn lf, lf ∉ l := fun l mem => Lib.not_mem_of_mem_splitOn lf mem
  rcases outside with above | below
  · have stays : shiftedLine edit line = line := if_pos (Nat.le_of_lt above)
    rw [stays, edit.after_above inside above]
  · have moves : shiftedLine edit line =
        line - edit.lastLine + (edit.firstLine + edit.newlineCount) := by
      unfold shiftedLine
      rw [if_neg (by omega), if_pos below]
      omega
    rw [moves, edit.after_below inside plain below]

/-- No other line goes where a line outside the edit does. -/
theorem shiftedLine_alone (edit : AppliedEdit) {other : Nat}
    (outside : line < edit.firstLine ∨ edit.lastLine < line)
    (meets : shiftedLine edit other = shiftedLine edit line) : other = line := by
  simp only [shiftedLine] at meets
  split_ifs at meets <;> omega

theorem eq_of_line_eq (strict : StrictLines bps) {a b : Breakpoint} (ha : a ∈ bps) (hb : b ∈ bps)
    (same : a.line = b.line) : a = b :=
  inj_on_of_nodup_map (strict.imp fun h => Nat.ne_of_lt h) ha hb same

theorem mem_shiftBreakpoints (edit : AppliedEdit) (strict : StrictLines bps) {bp : Breakpoint}
    (mem : bp ∈ bps) (outside : bp.line < edit.firstLine ∨ edit.lastLine < bp.line) :
    { bp with line := shiftedLine edit bp.line } ∈ shiftBreakpoints edit bps := by
  refine mem_of_destutter (mem_sortBy _ |>.mpr (mem_map_of_mem mem)) ?_
  intro other moved meets
  obtain ⟨source, inFile, rfl⟩ := mem_map.mp ((mem_sortBy _).mp moved)
  have line := shiftedLine_alone edit outside (not_not.mp meets)
  rw [eq_of_line_eq strict inFile mem line]

theorem followsText {s : BreakpointStore} (kept : s.WellKept) : s.FollowsText := by
  intro path edit text inside bp mem outside
  refine ⟨shiftedLine edit bp.line, ?_, shiftedLine_text edit text inside outside⟩
  have some_ : s.breakpointsOf (pathKey path) ≠ [] := ne_nil_of_mem mem
  have stays : shiftedLine edit bp.line = bp.line →
      { bp with line := shiftedLine edit bp.line } ∈ s.breakpointsOf (pathKey path) := by
    intro same
    rw [same]
    exact mem
  unfold shiftForAppliedEdit
  rw [if_neg some_]
  split
  next inLine =>
    refine stays ?_
    unfold shiftedLine
    dsimp only
    split
    · rfl
    · split <;> omega
  · split
    next unmoved =>
      exact stays (by simpa using all_eq_true.mp unmoved bp mem)
    · have after := breakpointsOf_updateFile (f := shiftBreakpoints edit)
        (exists_mem_of_breakpointsOf some_)
      change _ ∈ (s.updateFile (pathKey path) (shiftBreakpoints edit)).breakpointsOf (pathKey path)
      rw [after]
      exact mem_shiftBreakpoints edit (kept.strict _) mem outside

/-! ### Runs -/

theorem exists_reached (ops : List Op) : ∃ s, Reached ops s := by
  induction ops using List.reverseRecOn with
  | nil => exact ⟨_, .new⟩
  | append_singleton ops op ih =>
    obtain ⟨s, reached⟩ := ih
    exact ⟨_, reached.perform op⟩

theorem WellKept.rehash {s s' : BreakpointStore} (kept : s.WellKept)
    (perm : s.byPath.entries.Perm s'.byPath.entries) : s'.WellKept :=
  fun e mem => kept e (perm.mem_iff.mpr mem)

theorem Reached.wellKept {ops : List Op} {s : BreakpointStore} (reached : Reached ops s)
    (distinct : ∀ files, .replaceAll files ∈ ops → DistinctLines files) : s.WellKept := by
  induction reached with
  | new => exact fun _ mem => nomatch mem
  | perform op _ ih =>
    refine perform_wellKept (ih fun files mem => distinct files (mem_append_left _ mem)) op ?_
    rintro files rfl
    exact distinct files (mem_append_right _ mem_cons_self)
  | rehash _ perm _ ih => exact (ih distinct).rehash perm

/-- In every store a run reaches the lines are strictly sorted, no list is empty and shifts
follow the text, exactly where no bulk load of the run keeps a file with two breakpoints on one
line. -/
theorem reached_wellKept_iff (ops : List Op) :
    (∀ ops' s, ops' <+: ops → Reached ops' s → s.WellKept ∧ s.FollowsText) ↔
      ∀ files, .replaceAll files ∈ ops → DistinctLines files := by
  constructor
  · intro kept files mem
    obtain ⟨before, after, rfl⟩ := append_of_mem mem
    obtain ⟨s, reached⟩ := exists_reached before
    refine (replaceAll_wellKept_iff s files).mp (kept (before ++ [.replaceAll files]) _ ?_
      (reached.perform (.replaceAll files))).1
    exact ⟨after, by rw [append_assoc, singleton_append]⟩
  · rintro distinct ops' s cut reached
    have closed := reached.wellKept fun files mem => distinct files (cut.subset mem)
    exact ⟨closed, followsText closed⟩

/-- One file with two breakpoints on line 3. -/
def doubledFile : FileBreakpoints := { path := [0x61], breakpoints := [{ line := 3 }, { line := 3 }] }

/-- The bulk load keeps both. -/
theorem replaceAll_keeps_double :
    ¬ ∀ ops s, Reached ops s → s.WellKept ∧ s.FollowsText := by
  intro kept
  have loaded := (kept _ _ (Reached.new.perform (.replaceAll [doubledFile]))).1
  have strict := (loaded ⟨[0x61], loadedFile doubledFile⟩ mem_cons_self).1
  exact absurd (rel_of_pairwise_cons strict mem_cons_self) (Nat.lt_irrefl 3)

end BreakpointStore

end Microide.Editor
