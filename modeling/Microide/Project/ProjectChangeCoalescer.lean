/-
Coalesced project changes.

Watcher batches merge into one pending batch, a path at most once in it; past a cap on its file
changes a flood asks for a rescan of the tree, and past a second cap a change is kept nowhere. The
pending batch is consumed at a bounded rate, unless a flood makes it too large to hold.

**Main results.** `mergeFileChanges_spec`: what a merge makes of the changes reported so far;
`budgetAt_refilled`: the budget is a token bucket.
-/

import Mathlib.Data.List.AList
import Microide.Lib.TokenBucket
import Microide.Util.PathMatch

namespace Microide.Project

open List Lib Util

/-! ### Batches -/

inductive ProjectFileChangeKind where
  | created
  | modified
  | deleted
  deriving DecidableEq

structure ProjectFileChange where
  kind : ProjectFileChangeKind := .modified
  relativePath : PathText
  absolutePath : PathText

inductive RepositoryChange where
  | headChanged
  | indexChanged
  deriving DecidableEq

structure ProjectChangeBatch where
  fileChanges : List ProjectFileChange := []
  repositoryChanges : List RepositoryChange := []
  generation : Nat := 0
  treeRescanRequested : Bool := false
  fileChangesTruncated : Bool := false
  unitemizedFileChanges : List ProjectFileChange := []

def kMaxPendingFileChanges : Nat := 1024

def kReleaseHeldAtFileChanges : Nat := kMaxPendingFileChanges / 2

def kMaxUnitemizedFileChanges : Nat := 15 * 1024

def kApplyBurst : Nat := 4

def kApplyIntervalMs : UInt64 := 250

/-- The path of a change, normalized: what it is merged by. -/
def ProjectFileChange.key (change : ProjectFileChange) : PathText :=
  if pathTextNeedsNormalizing change.relativePath then lexicallyNormal change.relativePath
  else change.relativePath

def mergeIntoPendingChange (existing change : ProjectFileChange) : ProjectFileChange :=
  if change.kind = .deleted then { existing with kind := .deleted }
  else if existing.kind = .deleted ∧ change.kind = .modified then
    { existing with kind := .created, absolutePath := change.absolutePath }
  else { existing with kind := change.kind, absolutePath := change.absolutePath }

namespace ProjectChangeBatch

/-- What an entry of `pending_index_` is the place of. -/
def slot (batch : ProjectChangeBatch) (index : Nat) : Option ProjectFileChange :=
  if index < kMaxPendingFileChanges then batch.fileChanges[index]?
  else batch.unitemizedFileChanges[index - kMaxPendingFileChanges]?

def modifySlot (batch : ProjectChangeBatch) (index : Nat)
    (change : ProjectFileChange → ProjectFileChange) : ProjectChangeBatch :=
  if index < kMaxPendingFileChanges then
    { batch with fileChanges := batch.fileChanges.modify index change }
  else
    { batch with
      unitemizedFileChanges :=
        batch.unitemizedFileChanges.modify (index - kMaxPendingFileChanges) change }

/-- The paths a batch names, itemized or not. -/
def paths (batch : ProjectChangeBatch) : List PathText :=
  (batch.fileChanges ++ batch.unitemizedFileChanges).map ProjectFileChange.key

end ProjectChangeBatch

/-! ### The coalescer -/

structure ProjectChangeCoalescer where
  pending : ProjectChangeBatch := {}
  pendingIndex : AList fun _ : PathText => Nat := ∅
  generation : Nat := 0
  applyBudget : Nat := kApplyBurst
  budgetEpochMs : UInt64 := 0

variable {change : ProjectFileChange → ProjectFileChange} {batch : ProjectChangeBatch}
  {key : PathText}

namespace ProjectChangeCoalescer

def mergeFileChange (c : ProjectChangeCoalescer) (change : ProjectFileChange) :
    ProjectChangeCoalescer :=
  match c.pendingIndex.lookup change.key with
  | some found =>
    { c with
      pending := c.pending.modifySlot found fun existing => mergeIntoPendingChange existing change }
  | none =>
    if c.pending.fileChanges.length < kMaxPendingFileChanges then
      { c with
        pending := { c.pending with fileChanges := c.pending.fileChanges ++ [change] }
        pendingIndex := c.pendingIndex.insert change.key c.pending.fileChanges.length }
    else
      let flooded := { c.pending with treeRescanRequested := true, fileChangesTruncated := true }
      if c.pending.unitemizedFileChanges.length < kMaxUnitemizedFileChanges then
        { c with
          pending := { flooded with
            unitemizedFileChanges := c.pending.unitemizedFileChanges ++ [change] }
          pendingIndex := c.pendingIndex.insert change.key
            (kMaxPendingFileChanges + c.pending.unitemizedFileChanges.length) }
      else { c with pending := flooded }

def mergeRepositoryChange (c : ProjectChangeCoalescer) (change : RepositoryChange) :
    ProjectChangeCoalescer :=
  if change ∈ c.pending.repositoryChanges then c
  else
    { c with
      pending := { c.pending with
        repositoryChanges := c.pending.repositoryChanges ++ [change] } }

def ingest (c : ProjectChangeCoalescer) (batch : ProjectChangeBatch) : ProjectChangeCoalescer :=
  if batch.fileChanges = [] ∧ batch.repositoryChanges = [] ∧ batch.treeRescanRequested = false then c
  else
    let marked := { c with
      pending := { c.pending with
        treeRescanRequested := c.pending.treeRescanRequested || batch.treeRescanRequested
        fileChangesTruncated := c.pending.fileChangesTruncated || batch.fileChangesTruncated } }
    batch.repositoryChanges.foldl mergeRepositoryChange (batch.fileChanges.foldl mergeFileChange marked)

/-- `HasPendingLocked`. -/
def hasPending (c : ProjectChangeCoalescer) : Bool :=
  c.pending.fileChanges ≠ [] ∨ c.pending.repositoryChanges ≠ [] ∨ c.pending.treeRescanRequested

/-- `MustReleaseLocked`. -/
def mustRelease (c : ProjectChangeCoalescer) : Bool :=
  kReleaseHeldAtFileChanges ≤ c.pending.fileChanges.length ∨ c.pending.fileChangesTruncated

/-- `BudgetAtLocked`: the budget at a reading, and the epoch it refills from. -/
def budgetAt (c : ProjectChangeCoalescer) (nowMs : UInt64) : Nat × UInt64 :=
  let elapsed := if c.budgetEpochMs < nowMs then nowMs - c.budgetEpochMs else 0
  let refilled := elapsed / kApplyIntervalMs
  if kApplyBurst ≤ c.applyBudget + refilled.toNat then (kApplyBurst, nowMs)
  else (c.applyBudget + refilled.toNat, c.budgetEpochMs + refilled * kApplyIntervalMs)

/-- `TakePendingLocked`. -/
def takePending (c : ProjectChangeCoalescer) : ProjectChangeCoalescer × Option ProjectChangeBatch :=
  if c.hasPending then
    let generation := c.generation + 1
    ({ c with pending := {}, pendingIndex := ∅, generation := generation },
      some { c.pending with generation := generation })
  else (c, none)

def consumeReadyAt (c : ProjectChangeCoalescer) (nowMs : UInt64) :
    ProjectChangeCoalescer × Option ProjectChangeBatch :=
  if c.hasPending then
    let budget := c.budgetAt nowMs
    if budget.1 = 0 then
      if c.mustRelease then c.takePending else (c, none)
    else takePending { c with applyBudget := budget.1 - 1, budgetEpochMs := budget.2 }
  else (c, none)

def nextReadyDelayMs (c : ProjectChangeCoalescer) (nowMs : UInt64) : Option UInt64 :=
  if c.hasPending then
    let budget := c.budgetAt nowMs
    if 0 < budget.1 ∨ c.mustRelease then some 0
    -- The subtractions wrap where the reading is before the epoch.
    else some (kApplyIntervalMs - (nowMs - budget.2))
  else none

/-! ### Merging -/

theorem key_mergeIntoPendingChange (existing change : ProjectFileChange) :
    (mergeIntoPendingChange existing change).key = existing.key := by
  rw [mergeIntoPendingChange]
  split
  · rfl
  · split
    · rfl
    · rfl

section Merge

variable {c : ProjectChangeCoalescer} {changes : List ProjectFileChange}

/-- `pending_index_` tells where each path of the pending batch is. -/
structure Indexed (c : ProjectChangeCoalescer) : Prop where
  capped : c.pending.fileChanges.length ≤ kMaxPendingFileChanges
  found : ∀ key index, c.pendingIndex.lookup key = some index →
    (c.pending.slot index).map ProjectFileChange.key = some key
  indexed : ∀ key ∈ c.pending.paths, ∃ index, c.pendingIndex.lookup key = some index

/-- A batch reports changes: each of them is named in it, or it is truncated and asks for a rescan;
and it names no other path, and none twice. -/
structure Reports (batch : ProjectChangeBatch) (changes : List ProjectFileChange) : Prop where
  covered : ∀ change ∈ changes, change.key ∈ batch.paths ∨
    batch.fileChangesTruncated = true ∧ batch.treeRescanRequested = true
  named : ∀ path ∈ batch.paths, ∃ change ∈ changes, change.key = path
  distinct : batch.paths.Nodup

theorem map_key_modify (same : ∀ existing, (change existing).key = existing.key)
    (l : List ProjectFileChange) (index : Nat) : (l.modify index change).map ProjectFileChange.key =
      l.map ProjectFileChange.key := by
  refine ext_getElem? fun i => ?_
  rw [getElem?_map, getElem?_map, getElem?_modify, Option.map_eq_map]
  cases l[i]? with
  | none => rfl
  | some existing =>
    dsimp only [Option.map_some]
    split
    · rw [same]
    · rfl

theorem paths_modifySlot (same : ∀ existing, (change existing).key = existing.key)
    (batch : ProjectChangeBatch) (index : Nat) :
    (batch.modifySlot index change).paths = batch.paths := by
  rw [ProjectChangeBatch.modifySlot, ProjectChangeBatch.paths, ProjectChangeBatch.paths]
  split
  · rw [map_append, map_append, map_key_modify same]
  · rw [map_append, map_append, map_key_modify same]

theorem slot_key (batch : ProjectChangeBatch) (index : Nat) :
    (batch.slot index).map ProjectFileChange.key =
      if index < kMaxPendingFileChanges then (batch.fileChanges.map ProjectFileChange.key)[index]?
      else (batch.unitemizedFileChanges.map ProjectFileChange.key)[index - kMaxPendingFileChanges]? := by
  rw [ProjectChangeBatch.slot]
  split
  · rw [getElem?_map]
  · rw [getElem?_map]

theorem slot_modifySlot (same : ∀ existing, (change existing).key = existing.key)
    (batch : ProjectChangeBatch) (index at_ : Nat) :
    ((batch.modifySlot index change).slot at_).map ProjectFileChange.key =
      (batch.slot at_).map ProjectFileChange.key := by
  have keys : (batch.modifySlot index change).fileChanges.map ProjectFileChange.key =
        batch.fileChanges.map ProjectFileChange.key ∧
      (batch.modifySlot index change).unitemizedFileChanges.map ProjectFileChange.key =
        batch.unitemizedFileChanges.map ProjectFileChange.key := by
    by_cases file : index < kMaxPendingFileChanges
    · rw [ProjectChangeBatch.modifySlot, if_pos file]
      exact ⟨map_key_modify same _ _, rfl⟩
    · rw [ProjectChangeBatch.modifySlot, if_neg file]
      rw [map_key_modify same]
      exact ⟨rfl, rfl⟩
  rw [slot_key, slot_key, keys.1, keys.2]

theorem mem_paths_of_slot {index : Nat}
    (here : (batch.slot index).map ProjectFileChange.key = some key) : key ∈ batch.paths := by
  rw [slot_key] at here
  rw [ProjectChangeBatch.paths, map_append]
  split at here
  · exact mem_append_left _ (mem_of_getElem? here)
  · exact mem_append_right _ (mem_of_getElem? here)

/-- One more path, named at a place of its own. -/
theorem Indexed.push (indexed : c.Indexed) {place : Nat} (fresh : c.pendingIndex.lookup key = none)
    (capped : batch.fileChanges.length ≤ kMaxPendingFileChanges)
    (placed : (batch.slot place).map ProjectFileChange.key = some key)
    (kept : ∀ index path, (c.pending.slot index).map ProjectFileChange.key = some path →
      (batch.slot index).map ProjectFileChange.key = some path)
    (paths : batch.paths.Perm (key :: c.pending.paths)) :
    Indexed { c with pending := batch, pendingIndex := c.pendingIndex.insert key place } where
  capped := capped
  found other index looked := by
    by_cases same : other = key
    · subst same
      rw [AList.lookup_insert, Option.some.injEq] at looked
      exact looked ▸ placed
    · rw [AList.lookup_insert_ne same] at looked
      exact kept index other (indexed.found other index looked)
  indexed other mem := by
    by_cases same : other = key
    · exact ⟨place, same ▸ AList.lookup_insert _⟩
    · have before := (mem_cons.mp (paths.mem_iff.mp mem)).resolve_left same
      obtain ⟨index, looked⟩ := indexed.indexed other before
      exact ⟨index, (AList.lookup_insert_ne same).trans looked⟩

/-- A path not found is not named. -/
theorem Indexed.not_mem_paths (indexed : c.Indexed) (fresh : c.pendingIndex.lookup key = none) :
    key ∉ c.pending.paths := fun mem => by
  obtain ⟨index, looked⟩ := indexed.indexed key mem
  exact Option.some_ne_none index (looked.symm.trans fresh)

/-- A batch that reports changes, once a new path is named in it. -/
theorem Reports.push {after : ProjectChangeBatch} (reports : Reports batch changes)
    {change : ProjectFileChange} (fresh : change.key ∉ batch.paths)
    (paths : after.paths.Perm (change.key :: batch.paths))
    (flags : batch.fileChangesTruncated = true ∧ batch.treeRescanRequested = true →
      after.fileChangesTruncated = true ∧ after.treeRescanRequested = true) :
    Reports after (changes ++ [change]) where
  covered other mem := by
    rw [paths.mem_iff, mem_cons]
    rcases mem_append.mp mem with mem | mem
    · exact (reports.covered other mem).imp .inr flags
    · exact .inl (.inl (congrArg _ (mem_singleton.mp mem)))
  named path mem := by
    rcases mem_cons.mp (paths.mem_iff.mp mem) with rfl | mem
    · exact ⟨change, mem_append_right _ mem_cons_self, rfl⟩
    · obtain ⟨other, memOther, same⟩ := reports.named path mem
      exact ⟨other, mem_append_left _ memOther, same⟩
  distinct := paths.nodup_iff.mpr (nodup_cons.mpr ⟨fresh, reports.distinct⟩)

/-- One more change of which nothing new is named, of a batch whose flags only go up. -/
theorem Reports.same {after : ProjectChangeBatch} (reports : Reports batch changes)
    {change : ProjectFileChange} (paths : after.paths = batch.paths)
    (flags : batch.fileChangesTruncated = true ∧ batch.treeRescanRequested = true →
      after.fileChangesTruncated = true ∧ after.treeRescanRequested = true)
    (covered : change.key ∈ batch.paths ∨
      after.fileChangesTruncated = true ∧ after.treeRescanRequested = true) :
    Reports after (changes ++ [change]) where
  covered other mem := by
    rw [paths]
    rcases mem_append.mp mem with mem | mem
    · exact (reports.covered other mem).imp_right flags
    · exact mem_singleton.mp mem ▸ covered
  named path mem := by
    obtain ⟨other, memOther, same⟩ := reports.named path (paths ▸ mem)
    exact ⟨other, mem_append_left _ memOther, same⟩
  distinct := paths ▸ reports.distinct

/-- **One change merged.** -/
theorem mergeFileChange_spec (indexed : c.Indexed) (reports : Reports c.pending changes)
    (change : ProjectFileChange) : (c.mergeFileChange change).Indexed ∧
      Reports (c.mergeFileChange change).pending (changes ++ [change]) := by
  rw [mergeFileChange]
  split
  · -- The path is pending: its change takes this one in, at its place.
    rename_i place looked
    have same (existing : ProjectFileChange) := key_mergeIntoPendingChange existing change
    have paths := paths_modifySlot same c.pending place
    have here := indexed.found _ _ looked
    constructor
    · refine ⟨?_, fun key index other => ?_, fun key mem => indexed.indexed key (paths ▸ mem)⟩
      · rw [ProjectChangeBatch.modifySlot]
        split
        · exact (length_modify ..).trans_le indexed.capped
        · exact indexed.capped
      · exact (slot_modifySlot same c.pending place index).trans (indexed.found key index other)
    · refine reports.same paths (fun flags => ?_) (.inl (mem_paths_of_slot here))
      rw [ProjectChangeBatch.modifySlot]
      split
      · exact flags
      · exact flags
  next fresh =>
    have new := indexed.not_mem_paths fresh
    split
    · -- A new path, itemized.
      rename_i room
      have paths : ProjectChangeBatch.paths
          { c.pending with fileChanges := c.pending.fileChanges ++ [change] } |>.Perm
            (change.key :: c.pending.paths) := by
        rw [ProjectChangeBatch.paths, ProjectChangeBatch.paths]
        rw [append_assoc, map_append, map_append, map_append]
        exact perm_middle
      refine ⟨indexed.push fresh ?_ ?_ (fun index path => ?_) paths, reports.push new paths id⟩
      · rw [length_append]
        exact room
      · rw [slot_key, if_pos room, map_append, getElem?_append_right (by rw [length_map]),
          length_map, Nat.sub_self]
        rfl
      · rw [slot_key, slot_key]
        split
        · rw [map_append]
          exact fun here => getElem?_append_left (List.getElem?_eq_some_iff.mp here).1 |>.trans here
        · exact id
    next full =>
      split
      · -- A new path past the cap, kept for the servers.
        have paths : ProjectChangeBatch.paths
            { c.pending with
              treeRescanRequested := true
              fileChangesTruncated := true
              unitemizedFileChanges := c.pending.unitemizedFileChanges ++ [change] } |>.Perm
              (change.key :: c.pending.paths) := by
          rw [ProjectChangeBatch.paths, ProjectChangeBatch.paths]
          rw [← append_assoc, map_append]
          exact perm_append_singleton _ _
        refine ⟨indexed.push fresh indexed.capped ?_ (fun index path => ?_) paths,
          reports.push new paths fun _ => ⟨rfl, rfl⟩⟩
        · rw [slot_key, if_neg (by omega), map_append, Nat.add_sub_cancel_left,
            getElem?_append_right (by rw [length_map]), length_map, Nat.sub_self]
          rfl
        · rw [slot_key, slot_key]
          split
          · exact id
          · rw [map_append]
            exact fun here => getElem?_append_left
              (List.getElem?_eq_some_iff.mp here).1 |>.trans here
      · -- Past both caps: only the rescan tells of it.
        exact ⟨⟨indexed.capped, indexed.found, indexed.indexed⟩,
          reports.same rfl (fun _ => ⟨rfl, rfl⟩) (.inr ⟨rfl, rfl⟩)⟩

theorem mergeFileChanges_spec (indexed : c.Indexed) (reports : Reports c.pending changes)
    (more : List ProjectFileChange) : (more.foldl mergeFileChange c).Indexed ∧
      Reports (more.foldl mergeFileChange c).pending (changes ++ more) := by
  induction more generalizing c changes with
  | nil => exact ⟨indexed, (append_nil changes).symm ▸ reports⟩
  | cons change more ih =>
    obtain ⟨indexed, reports⟩ := mergeFileChange_spec indexed reports change
    rw [foldl_cons, append_cons]
    exact ih indexed reports

theorem mergeRepositoryChanges_same (c : ProjectChangeCoalescer) (more : List RepositoryChange) :
    let after := more.foldl mergeRepositoryChange c
    after = { c with
      pending := { c.pending with repositoryChanges := after.pending.repositoryChanges } } := by
  induction more generalizing c with
  | nil => rfl
  | cons change more ih =>
    rw [foldl_cons]
    have first : c.mergeRepositoryChange change = { c with
        pending := { c.pending with
          repositoryChanges := (c.mergeRepositoryChange change).pending.repositoryChanges } } := by
      rw [mergeRepositoryChange]
      split
      · rfl
      · rfl
    have rest := ih (c.mergeRepositoryChange change)
    rw [first] at rest ⊢
    exact rest

/-- **A batch merged.** -/
theorem ingest_spec (indexed : c.Indexed) (reports : Reports c.pending changes)
    (batch : ProjectChangeBatch) : (c.ingest batch).Indexed ∧
      Reports (c.ingest batch).pending (changes ++ batch.fileChanges) := by
  rw [ingest]
  split
  next nothing =>
    rw [nothing.1, append_nil]
    exact ⟨indexed, reports⟩
  · dsimp only
    rw [mergeRepositoryChanges_same]
    have marked : Reports { c.pending with
        treeRescanRequested := c.pending.treeRescanRequested || batch.treeRescanRequested
        fileChangesTruncated := c.pending.fileChangesTruncated || batch.fileChangesTruncated }
          changes := by
      refine ⟨fun change mem => (reports.covered change mem).imp_right fun flags => ?_, reports.named,
        reports.distinct⟩
      rw [flags.1, flags.2]
      exact ⟨rfl, rfl⟩
    have merged := @mergeFileChanges_spec { c with
      pending := { c.pending with
        treeRescanRequested := c.pending.treeRescanRequested || batch.treeRescanRequested
        fileChangesTruncated := c.pending.fileChangesTruncated || batch.fileChangesTruncated } } changes
      ⟨indexed.capped, indexed.found, indexed.indexed⟩ marked batch.fileChanges
    obtain ⟨indexed, reports⟩ := merged
    exact ⟨⟨indexed.capped, indexed.found, indexed.indexed⟩, reports.covered, reports.named,
      reports.distinct⟩

end Merge

/-! ### The budget -/

section Budget

variable {c after : ProjectChangeCoalescer} {nowMs : UInt64}

def bucket (c : ProjectChangeCoalescer) : TokenBucket := ⟨c.applyBudget, c.budgetEpochMs.toNat⟩

/-- **The budget is that of a token bucket.** -/
theorem budgetAt_refilled (c : ProjectChangeCoalescer) (nowMs : UInt64) :
    (⟨(c.budgetAt nowMs).1, (c.budgetAt nowMs).2.toNat⟩ : TokenBucket) =
      c.bucket.refilled kApplyBurst kApplyIntervalMs.toNat nowMs.toNat := by
  have elapsed : (if c.budgetEpochMs < nowMs then nowMs - c.budgetEpochMs else 0).toNat =
      nowMs.toNat - c.budgetEpochMs.toNat := by
    split
    next later =>
      exact UInt64.toNat_sub_of_le _ _ (UInt64.le_of_lt later)
    next back =>
      rw [UInt64.lt_iff_toNat_lt] at back
      rw [UInt64.toNat_zero]
      omega
  have gained : ((if c.budgetEpochMs < nowMs then nowMs - c.budgetEpochMs else 0) /
      kApplyIntervalMs).toNat = (nowMs.toNat - c.budgetEpochMs.toNat) / kApplyIntervalMs.toNat := by
    rw [UInt64.toNat_div, elapsed]
  rw [budgetAt, TokenBucket.refilled, bucket]
  rw [gained]
  split
  · rfl
  · have whole := Nat.div_mul_le_self (nowMs.toNat - c.budgetEpochMs.toNat) kApplyIntervalMs.toNat
    have bound := nowMs.toNat_lt
    have epoch := c.budgetEpochMs.toNat_lt
    rw [TokenBucket.mk.injEq]
    refine ⟨rfl, ?_⟩
    rw [UInt64.toNat_add, UInt64.toNat_mul, gained, Nat.mod_eq_of_lt (a := _ * _), Nat.mod_eq_of_lt]
    · omega
    · omega

theorem budgetAt_eq_zero : (c.budgetAt nowMs).1 = 0 ↔
    (c.bucket.refilled kApplyBurst kApplyIntervalMs.toNat nowMs.toNat).tokens = 0 := by
  rw [← budgetAt_refilled]

/-- A consumption at a reading is granted. -/
def ReadyAt (c : ProjectChangeCoalescer) (nowMs : UInt64) : Prop :=
  c.hasPending = true ∧ ((c.budgetAt nowMs).1 ≠ 0 ∨ c.mustRelease = true)

theorem takePending_of_hasPending (pending : c.hasPending = true) : c.takePending =
    ({ c with pending := {}, pendingIndex := ∅, generation := c.generation + 1 },
      some { c.pending with generation := c.generation + 1 }) := if_pos pending

/-- **All a consumption can do**: nothing, or hand over what is pending, for a token or for none. -/
theorem consumeReadyAt_cases (c : ProjectChangeCoalescer) (nowMs : UInt64) :
    ¬c.ReadyAt nowMs ∧ c.consumeReadyAt nowMs = (c, none) ∨
      c.ReadyAt nowMs ∧ ∃ after generation,
        c.consumeReadyAt nowMs = (after, some { c.pending with generation := generation }) ∧
        after.pending = {} ∧ after.pendingIndex = ∅ ∧
        if (c.budgetAt nowMs).1 = 0 then after.bucket = c.bucket
        else c.bucket.spend kApplyBurst kApplyIntervalMs.toNat nowMs.toNat = some after.bucket := by
  rw [ReadyAt, consumeReadyAt]
  cases pending : c.hasPending with
  | false => exact .inl ⟨fun ready => Bool.false_ne_true ready.1, rfl⟩
  | true =>
    rw [if_pos rfl]
    by_cases spent : (c.budgetAt nowMs).1 = 0
    · rw [if_pos spent]
      cases release : c.mustRelease with
      | false =>
        exact .inl ⟨fun ready => ready.2.elim (fun some_ => some_ spent) Bool.false_ne_true, rfl⟩
      | true =>
        rw [if_pos rfl, takePending_of_hasPending pending]
        exact .inr ⟨⟨rfl, .inr rfl⟩, _, _, rfl, rfl, rfl, (if_pos spent).mpr rfl⟩
    · rw [if_neg spent]
      refine .inr ⟨⟨rfl, .inl spent⟩, _, _, takePending_of_hasPending pending, rfl, rfl,
        (if_neg spent).mpr ?_⟩
      rw [TokenBucket.spend, ← budgetAt_refilled]
      exact if_neg spent

end Budget

end ProjectChangeCoalescer

end Microide.Project
