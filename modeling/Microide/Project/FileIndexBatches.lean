/-
Batches against changes one by one.

A path-keyed map takes the accepted changes of a batch one at a time, in their order. The index
after the batch is that map, sorted.

**Main results.** `applyRun_spec`: a run is its changes one by one; `applyBatch_spec`: a batch is,
and it says that it changed the index exactly where one of its runs did.
-/

import Microide.Project.FileIndex

namespace Microide.Project

open List Bool Lib Util

/-- A path-keyed map of files. -/
abbrev FileMap := PathText → Option ProjectFile

/-- One change to the map. -/
def applyChange (map : FileMap) (op : BatchOp) : FileMap :=
  if op.recursive then fun path => if withinDir op.deletedPath path then none else map path
  else Function.update map op.path op.file

/-- The changes one at a time. -/
def applyChanges (map : FileMap) (ops : List BatchOp) : FileMap := ops.foldl applyChange map

/-- What the index holds at a path. -/
def lookup (files : List ProjectFile) : FileMap := fun path =>
  files.find? fun file => file.relativePath = path

variable {files : List ProjectFile}

theorem lookup_eq_some (sorted : Sorted files) {path : PathText} {file : ProjectFile} :
    lookup files path = some file ↔ file ∈ files ∧ file.relativePath = path := by
  constructor
  · intro found
    exact ⟨mem_of_find?_eq_some found, by simpa using find?_some found⟩
  · rintro ⟨mem, same⟩
    cases found : lookup files path with
    | none =>
      have := find?_eq_none.mp found file mem
      simp [same] at this
    | some other =>
      have isPath : other.relativePath = path := by simpa using find?_some found
      rw [sorted.unique (mem_of_find?_eq_some found) mem (isPath.trans same.symm)]

/-- The map says what the index is. -/
theorem lookup_inj {others : List ProjectFile} (sorted : Sorted files) (sorted' : Sorted others)
    (same : lookup files = lookup others) : files = others := by
  refine sorted.ext sorted' fun file => ?_
  have read := @lookup_eq_some _ sorted file.relativePath file
  have read' := @lookup_eq_some _ sorted' file.relativePath file
  rw [same] at read
  simpa using read.symm.trans read'

/-! ### Runs -/

theorem applyChanges_segment {segment : List BatchOp} (plain : ∀ op ∈ segment, op.recursive = false)
    (map : FileMap) (path : PathText) : applyChanges map segment path =
      match lastWith BatchOp.path segment path with
      | some op => op.file
      | none => map path := by
  induction segment generalizing map with
  | nil => rfl
  | cons op segment ih =>
    obtain ⟨first, plain⟩ := forall_mem_cons.mp plain
    rw [applyChanges, foldl_cons, ← applyChanges, ih plain, lastWith_cons]
    cases lastWith BatchOp.path segment path with
    | some last => rfl
    | none =>
      rw [Option.none_or, applyChange, first, if_neg Bool.false_ne_true]
      by_cases same : op.path = path
      · rw [if_pos same, ← same]
        exact Function.update_self ..
      · rw [if_neg same]
        exact Function.update_of_ne (Ne.symm same) ..

theorem applyChanges_subtrees {run : List BatchOp} (recursive : ∀ op ∈ run, op.recursive = true)
    (map : FileMap) (path : PathText) : applyChanges map run path =
      if (run.map BatchOp.deletedPath).any fun dir => withinDir dir path then none
      else map path := by
  induction run generalizing map with
  | nil => rfl
  | cons op run ih =>
    obtain ⟨first, recursive⟩ := forall_mem_cons.mp recursive
    rw [applyChanges, foldl_cons, ← applyChanges, ih recursive, applyChange, first, if_pos rfl]
    rw [map_cons, any_cons]
    by_cases within : withinDir op.deletedPath path = true
    · rw [within, Bool.true_or, if_pos rfl]
      split <;> rfl
    · rw [not_eq_true] at within
      rw [within, Bool.false_or, if_neg Bool.false_ne_true]

/-- What the loop over the batch takes from an accepted change. -/
structure AcceptedOp (op : BatchOp) : Prop where
  named : op.path ≠ []
  deletes : op.recursive = true → op.file = none

theorem acceptedOp_of_batchOp {change : IndexChange} {op : BatchOp}
    (accepts : batchOp change = some op) : AcceptedOp op := by
  rw [batchOp] at accepts
  split at accepts
  · exact absurd accepts.symm (Option.some_ne_none op)
  next accepted =>
    have named : normalizedPathView change.entry.relativePath ≠ [] := by
      intro empty
      simp [empty] at accepted
    split at accepts
    · rw [← Option.some.inj accepts]
      exact ⟨named, fun _ => rfl⟩
    · rw [← Option.some.inj accepts]
      exact ⟨named, fun recursive => Bool.noConfusion recursive⟩

/-- What a run does to an index, as a step of the map. -/
structure StepOf (files : List ProjectFile) (run : List BatchOp) (applied : List ProjectFile × Bool) :
    Prop where
  sorted : Sorted applied.1
  holds : lookup applied.1 = applyChanges (lookup files) run
  changed : applied.2 = true ↔ applied.1 ≠ files

/-- **A run is its changes one by one**, and it tells whether it changed the index. -/
theorem applyRun_spec (sorted : Sorted files) {run : List BatchOp}
    (accepted : ∀ op ∈ run, AcceptedOp op) {recursive : Bool}
    (uniform : ∀ op ∈ run, op.recursive = recursive) (some_ : run ≠ []) :
    StepOf files run (applyRun files run) := by
  obtain ⟨first, rest, rfl⟩ := exists_cons_of_ne_nil some_
  have isFirst := uniform first mem_cons_self
  rw [applyRun, head?_cons, Option.any_some, isFirst]
  cases recursive with
  | true =>
    rw [if_pos rfl]
    have named : ∀ dir ∈ (first :: rest).map BatchOp.deletedPath, dir ≠ [] := by
      rw [forall_mem_map]
      intro op mem
      have named := (accepted op mem).named
      rwa [BatchOp.path, (accepted op mem).deletes (uniform op mem)] at named
    rw [removeProjectSubtrees_spec sorted named]
    have sortedAfter : Sorted (files.filter fun file =>
        !((first :: rest).map BatchOp.deletedPath).any fun dir => withinDir dir file.relativePath) :=
      sorted.filter _
    refine ⟨sortedAfter, ?_, ?_⟩
    · funext path
      rw [applyChanges_subtrees uniform]
      refine Option.ext fun file => ?_
      rw [lookup_eq_some sortedAfter, mem_filter]
      by_cases covered :
          (((first :: rest).map BatchOp.deletedPath).any fun dir => withinDir dir path) = true
      · rw [if_pos covered]
        constructor
        · rintro ⟨⟨-, kept⟩, rfl⟩
          rw [covered] at kept
          exact Bool.noConfusion kept
        · exact fun none_ => absurd none_.symm (Option.some_ne_none file)
      · rw [if_neg covered, lookup_eq_some sorted]
        constructor
        · exact fun held => ⟨held.1.1, held.2⟩
        · rintro ⟨mem, rfl⟩
          exact ⟨⟨mem, by simpa using covered⟩, rfl⟩
    · rw [any_eq_true, ne_eq, filter_eq_self]
      push Not
      refine exists_congr fun file => and_congr_right fun _ => ?_
      rw [ne_eq, not_eq_true, not_eq_false']
  | false =>
    rw [if_neg Bool.false_ne_true]
    obtain ⟨⟨sortedAfter, members⟩, changed⟩ := applySegment_spec sorted (first :: rest)
    refine ⟨sortedAfter, ?_, changed⟩
    funext path
    rw [applyChanges_segment uniform, ← lastWith_lastOfRuns_sortBy]
    have apart := lastOfRuns_strict BatchOp.path (sortBy_pairwise BatchOp.path (first :: rest))
    generalize lastOfRuns BatchOp.path (sortBy BatchOp.path (first :: rest)) = ops at *
    refine Option.ext fun file => ?_
    rw [lookup_eq_some sortedAfter, members]
    cases last : lastWith BatchOp.path ops path with
    | some op =>
      obtain ⟨mem, rfl⟩ := lastWith_mem BatchOp.path last
      constructor
      · rintro ⟨⟨next, memNext, isFile⟩ | ⟨-, others⟩, same⟩
        · have path : next.path = file.relativePath := BatchOp.path_eq isFile
          obtain rfl := op_unique apart mem memNext (path.trans same).symm
          exact isFile
        · exact absurd same.symm (others op mem)
      · intro isFile
        exact ⟨.inl ⟨op, mem, isFile⟩, (BatchOp.path_eq isFile).symm⟩
    | none =>
      rw [lookup_eq_some sorted]
      have absent : ∀ op ∈ ops, op.path ≠ path := by
        rintro op mem rfl
        obtain ⟨other, found⟩ := lastWith_isSome BatchOp.path mem
        exact Option.some_ne_none other (found.symm.trans last)
      constructor
      · rintro ⟨⟨op, mem, isFile⟩ | ⟨mem, -⟩, rfl⟩
        · exact absurd (BatchOp.path_eq isFile) (absent op mem)
        · exact ⟨mem, rfl⟩
      · rintro ⟨mem, rfl⟩
        exact ⟨.inr ⟨mem, absent⟩, rfl⟩

/-! ### Batches -/

/-- The runs of a batch: all its accepted changes, none empty, and each of one kind. -/
theorem batchRuns_spec (ops : List BatchOp) : (batchRuns ops).flatten = ops ∧
    ∀ run ∈ batchRuns ops, run ≠ [] ∧ ∃ recursive, ∀ op ∈ run, op.recursive = recursive := by
  refine ⟨flatten_splitBy _ ops, fun run mem => ?_⟩
  have some_ := ne_nil_of_mem_splitBy mem
  have chain := isChain_of_mem_splitBy mem
  refine ⟨some_, ?_⟩
  obtain ⟨first, rest, rfl⟩ := exists_cons_of_ne_nil some_
  refine ⟨first.recursive, ?_⟩
  clear mem some_
  induction rest generalizing first with
  | nil => exact fun op mem => by rw [mem_singleton.mp mem]
  | cons next rest ih =>
    obtain ⟨same, chain⟩ := isChain_cons_cons.mp chain
    refine forall_mem_cons.mpr ⟨rfl, fun op mem => ?_⟩
    rw [ih next chain op mem, eq_of_beq same]

/-- **Runs one after the other** are their changes one by one. -/
theorem applyRuns_spec (sorted : Sorted files) (changed : Bool) {runs : List (List BatchOp)}
    (accepted : ∀ run ∈ runs, ∀ op ∈ run, AcceptedOp op)
    (shaped : ∀ run ∈ runs, run ≠ [] ∧ ∃ recursive, ∀ op ∈ run, op.recursive = recursive) :
    Sorted (applyRuns files changed runs).1 ∧
      lookup (applyRuns files changed runs).1 = applyChanges (lookup files) runs.flatten ∧
      ((applyRuns files changed runs).2 = true ↔ changed = true ∨ ∃ before run after,
        runs = before ++ run :: after ∧
          applyChanges (lookup files) (before ++ [run]).flatten ≠
            applyChanges (lookup files) before.flatten) ∧
      ((applyRuns files changed runs).1 ≠ files → (applyRuns files changed runs).2 = true) := by
  induction runs generalizing files changed with
  | nil =>
    refine ⟨sorted, rfl, ?_, fun moved => absurd rfl moved⟩
    rw [applyRuns]
    simp
  | cons run runs ih =>
    obtain ⟨acceptedRun, accepted⟩ := forall_mem_cons.mp accepted
    obtain ⟨⟨some_, recursive, uniform⟩, shaped⟩ := forall_mem_cons.mp shaped
    have step := applyRun_spec sorted acceptedRun uniform some_
    obtain ⟨sortedAfter, holds, flagged, forward⟩ :=
      ih step.sorted ((applyRun files run).2 || changed) accepted shaped
    rw [applyRuns]
    refine ⟨sortedAfter, ?_, ?_, fun moved => ?_⟩
    · rw [holds, step.holds, flatten_cons, applyChanges, applyChanges, applyChanges, foldl_append]
    · have moved : (applyRun files run).2 = true ↔
          applyChanges (lookup files) run ≠ lookup files := by
        rw [step.changed, ← step.holds]
        refine not_congr ⟨fun same => by rw [same], fun same => ?_⟩
        exact lookup_inj step.sorted sorted same
      have shift : ∀ rest : List BatchOp, applyChanges (lookup (applyRun files run).1) rest =
          applyChanges (lookup files) (run ++ rest) := by
        intro rest
        rw [step.holds, applyChanges, applyChanges, applyChanges, foldl_append]
      rw [flagged, or_eq_true, moved]
      simp only [shift]
      constructor
      · rintro ((moves | already) | ⟨before, next, after, rfl, moves⟩)
        · exact .inr ⟨[], run, runs, rfl, by simpa [applyChanges] using moves⟩
        · exact .inl already
        · exact .inr ⟨run :: before, next, after, rfl, moves⟩
      · rintro (already | ⟨before, next, after, cut, moves⟩)
        · exact .inl (.inr already)
        · cases before with
          | nil =>
            obtain ⟨rfl, rfl⟩ := List.cons.inj cut
            exact .inl (.inl (by simpa [applyChanges] using moves))
          | cons first before =>
            obtain ⟨rfl, rfl⟩ := List.cons.inj cut
            exact .inr ⟨before, next, after, rfl, moves⟩
    · by_cases still : (applyRun files run).1 = files
      · exact forward fun same => moved (same.trans still)
      · exact flagged.mpr (.inl (by rw [step.changed.mpr still, Bool.true_or]))

/-- **A batch is its accepted changes one by one**, and it says that it changed the index exactly
where one of its runs did; where it says nothing changed, nothing did. -/
theorem applyBatch_spec {files : List ProjectFile} (sorted : Sorted files)
    (changes : List IndexChange) :
    Sorted (applyBatch files changes).1 ∧
      lookup (applyBatch files changes).1 = applyChanges (lookup files) (batchOps changes) ∧
      ((applyBatch files changes).2 = true ↔ ∃ before run after,
        batchRuns (batchOps changes) = before ++ run :: after ∧
          applyChanges (lookup files) (before ++ [run]).flatten ≠
            applyChanges (lookup files) before.flatten) ∧
      ((applyBatch files changes).1 ≠ files → (applyBatch files changes).2 = true) := by
  obtain ⟨whole, shaped⟩ := batchRuns_spec (batchOps changes)
  have accepted : ∀ run ∈ batchRuns (batchOps changes), ∀ op ∈ run, AcceptedOp op := by
    intro run memRun op mem
    have memOps : op ∈ batchOps changes := whole ▸ mem_flatten.mpr ⟨run, memRun, mem⟩
    obtain ⟨change, -, accepts⟩ := mem_filterMap.mp memOps
    exact acceptedOp_of_batchOp accepts
  obtain ⟨sortedAfter, holds, flagged, moves⟩ := applyRuns_spec sorted false accepted shaped
  rw [whole] at holds
  exact ⟨sortedAfter, holds, flagged.trans (or_iff_right Bool.false_ne_true), moves⟩

/-- A file created, and with its directory deleted again. -/
def createdAndDeleted : List IndexChange :=
  [⟨.createdOrModified, ⟨[0x61], 0, 1⟩, false⟩, ⟨.deleted, ⟨[0x61], 0, 0⟩, true⟩]

theorem applyBatch_spec_createdAndDeleted :
    Sorted [] ∧ Sorted (applyBatch [] createdAndDeleted).1 ∧
      lookup (applyBatch [] createdAndDeleted).1 =
        applyChanges (lookup []) (batchOps createdAndDeleted) :=
  ⟨.nil, (applyBatch_spec .nil createdAndDeleted).1, (applyBatch_spec .nil createdAndDeleted).2.1⟩

/-- A batch can say that it changed an index that it leaves as it was. -/
theorem applyBatch_changedBack : ¬∀ (files : List ProjectFile) (changes : List IndexChange),
    Sorted files → ((applyBatch files changes).2 = true ↔ (applyBatch files changes).1 ≠ files) := by
  intro all
  have run : applyBatch [] createdAndDeleted = ([], true) := by decide +kernel
  have moved := (all [] createdAndDeleted .nil).mp (by rw [run])
  exact moved (by rw [run])

end Microide.Project
