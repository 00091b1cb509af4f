/-
The index of files by owner.

Two stores keep the same index, owner by path key, and a merged view by path beside it. The operations
on the index say which path keys they touched; the store rebuilds the view at those.

**Main results.** `entryAt_clearOwner`, `entryAt_clearOwnerFile`, `entryAt_clearUnderPrefix`,
`entryAt_retarget`: under every key not touched the index is as it was.
-/

import Microide.Lib.LastWins
import Microide.Lib.NestedTables
import Microide.Util.PathPrefixes

namespace Microide.Editor

open List Lib Util


/-- `NormalizedPathKey`. -/
def normalizedPathKey (path : PathText) : PathText :=
  if path = [] then [] else lexicallyNormal path

abbrev OwnerIndex (Entry : Type) := Nested (List UInt8) PathText Entry

/-- The index after an operation, and the path keys to rebuild, in order. -/
structure Swept (Entry : Type) where
  byOwner : OwnerIndex Entry
  affected : List PathText
  changed : Bool

/-- Each path key once, in order. -/
def affectedOnce (keys : List PathText) : List PathText :=
  (sortBy (fun key : PathText => key.map UInt8.toNat) keys).destutter (· ≠ ·)

section Operations

variable {Entry : Type}

def clearOwnerEntries (byOwner : OwnerIndex Entry) (owner : List UInt8) : Swept Entry :=
  match byOwner.lookup owner with
  | none => ⟨byOwner, [], false⟩
  | some entries => ⟨byOwner.erase owner, entries.keys, entries.keys ≠ []⟩

def clearOwnerFileEntry (byOwner : OwnerIndex Entry) (owner : List UInt8) (key : PathText) :
    Swept Entry :=
  if owner = [] ∨ key = [] then ⟨byOwner, [], false⟩
  else
    match byOwner.lookup owner with
    | none => ⟨byOwner, [], false⟩
    | some entries =>
      if (entries.lookup key).isNone then ⟨byOwner, [], false⟩
      else
        let entries := entries.erase key
        ⟨if entries.entries.isEmpty then byOwner.erase owner else byOwner.insert owner entries,
          [key], true⟩

variable (pathOf : Entry → PathText)

/-- The keys of an owner's entries at the prefix or below it. -/
def keysUnder (pathPrefix : PathText) (entries : Table PathText Entry) : List PathText :=
  (entries.entries.filter fun entry => pathEqualsOrWithin (pathOf entry.2) pathPrefix).map Sigma.fst

def clearEntriesUnderPrefix (byOwner : OwnerIndex Entry) (pathPrefix : PathText) : Swept Entry :=
  let normalized := lexicallyNormal pathPrefix
  if normalized = [] then ⟨byOwner, [], false⟩
  else
    let affected := byOwner.entries.flatMap fun owner => keysUnder pathOf normalized owner.2
    ⟨mapRows (fun entries =>
        (keysUnder pathOf normalized entries).foldl (fun entries key => entries.erase key) entries)
      byOwner, affectedOnce affected, affected ≠ []⟩

/-- An entry to move: its key, and itself under its new key. -/
structure Retarget (Entry : Type) where
  oldKey : PathText
  newKey : PathText
  moved : Entry

variable (withPath : Entry → PathText → Entry) (rewrite : Entry → PathText → PathText → Entry)

/-- The entries of an owner that move. One that would have an empty key stays where it is. -/
def retargets (old new : PathText) (entries : Table PathText Entry) : List (Retarget Entry) :=
  entries.entries.filterMap fun entry =>
    if pathEqualsOrWithin (pathOf entry.2) old then
      let moved := rewrite (withPath entry.2 (replacePathPrefix (pathOf entry.2) old new)) old new
      let newKey := normalizedPathKey (pathOf moved)
      if newKey = [] then none else some ⟨entry.1, newKey, moved⟩
    else none

/-- The moves done: all old keys go, then the entries come in order. -/
def applyRetargets (moves : List (Retarget Entry)) (entries : Table PathText Entry) :
    Table PathText Entry :=
  (moves.map fun move => (move.newKey, move.moved)).foldl
    (fun entries move => entries.insert move.1 move.2)
    ((moves.map (·.oldKey)).foldl (fun entries key => entries.erase key) entries)

def retargetEntriesUnderPrefix (byOwner : OwnerIndex Entry) (oldPrefix newPrefix : PathText) :
    Swept Entry :=
  let old := lexicallyNormal oldPrefix
  let new := lexicallyNormal newPrefix
  if old = [] ∨ new = [] ∨ samePath old new = true then ⟨byOwner, [], false⟩
  else
    let moves := retargets pathOf withPath rewrite old new
    let affected := byOwner.entries.flatMap fun owner =>
      (moves owner.2).flatMap fun move => [move.oldKey, move.newKey]
    ⟨mapRows (fun entries => applyRetargets (moves entries) entries) byOwner, affectedOnce affected,
      affected ≠ []⟩

end Operations

/-! ### What the operations leave -/

section Kept

variable {Entry : Type} {byOwner : OwnerIndex Entry} {key : PathText}

theorem mem_affectedOnce {keys : List PathText} : key ∈ affectedOnce keys ↔ key ∈ keys := by
  rw [affectedOnce, mem_destutter, mem_sortBy]

theorem entryAt_clearOwner {owner : List UInt8} (row : List UInt8)
    (apart : key ∉ (clearOwnerEntries byOwner owner).affected) :
    entryAt (clearOwnerEntries byOwner owner).byOwner row key = entryAt byOwner row key := by
  rw [clearOwnerEntries] at apart ⊢
  cases found : byOwner.lookup owner with
  | none => rfl
  | some entries =>
    rw [found] at apart
    rw [entryAt_erase]
    split
    next same =>
      rw [entryAt, same, found]
      exact (AList.lookup_eq_none.mpr fun mem => apart (AList.mem_keys.mp mem)).symm
    · rfl

theorem entryAt_clearOwnerFile {owner : List UInt8} {file : PathText} (row : List UInt8)
    (apart : key ∉ (clearOwnerFileEntry byOwner owner file).affected) :
    entryAt (clearOwnerFileEntry byOwner owner file).byOwner row key = entryAt byOwner row key := by
  rw [clearOwnerFileEntry] at apart ⊢
  split
  · rfl
  next named =>
    rw [if_neg named] at apart
    cases found : byOwner.lookup owner with
    | none => rfl
    | some entries =>
      rw [found] at apart
      dsimp only at apart ⊢
      split
      · rfl
      next held =>
        rw [if_neg held] at apart
        have other : key ≠ file := fun same => apart (mem_singleton.mpr same)
        have rowHere : entryAt byOwner owner key = entries.lookup key := by
          rw [entryAt, found]
          rfl
        split
        next empty =>
          rw [entryAt_erase]
          split
          next same =>
            subst same
            have none_ : (entries.erase file).lookup key = none := by
              rw [AList.lookup, List.isEmpty_iff.mp empty]
              rfl
            rw [rowHere, ← none_, AList.lookup_erase_ne other]
          · rfl
        · rw [entryAt_insert]
          split
          next same =>
            subst same
            rw [rowHere, AList.lookup_erase_ne other]
          · rfl

variable {pathOf : Entry → PathText}

theorem entryAt_clearUnderPrefix {pathPrefix : PathText} (row : List UInt8)
    (apart : key ∉ (clearEntriesUnderPrefix pathOf byOwner pathPrefix).affected) :
    entryAt (clearEntriesUnderPrefix pathOf byOwner pathPrefix).byOwner row key =
      entryAt byOwner row key := by
  rw [clearEntriesUnderPrefix] at apart ⊢
  split
  · rfl
  next named =>
    rw [if_neg named] at apart
    rw [entryAt_mapRows, entryAt]
    cases found : byOwner.lookup row with
    | none => rfl
    | some entries =>
      refine lookup_foldl_erase fun mem => apart (mem_affectedOnce.mpr ?_)
      exact mem_flatMap.mpr ⟨⟨row, entries⟩, of_mem_dlookup found, mem⟩

variable {withPath : Entry → PathText → Entry} {rewrite : Entry → PathText → PathText → Entry}

theorem entryAt_retarget {oldPrefix newPrefix : PathText} (row : List UInt8)
    (apart : key ∉
      (retargetEntriesUnderPrefix pathOf withPath rewrite byOwner oldPrefix newPrefix).affected) :
    entryAt (retargetEntriesUnderPrefix pathOf withPath rewrite byOwner oldPrefix newPrefix).byOwner
      row key = entryAt byOwner row key := by
  rw [retargetEntriesUnderPrefix] at apart ⊢
  split
  · rfl
  next moves_ =>
    rw [if_neg moves_] at apart
    rw [entryAt_mapRows, entryAt]
    cases found : byOwner.lookup row with
    | none => rfl
    | some entries =>
      have touched {move : Retarget Entry}
          (mem : move ∈ retargets pathOf withPath rewrite (lexicallyNormal oldPrefix)
            (lexicallyNormal newPrefix) entries) : key ≠ move.oldKey ∧ key ≠ move.newKey := by
        have listed : ∀ other ∈ [move.oldKey, move.newKey], key ≠ other := by
          rintro other among rfl
          refine apart (mem_affectedOnce.mpr ?_)
          exact mem_flatMap.mpr ⟨⟨row, entries⟩, of_mem_dlookup found,
            mem_flatMap.mpr ⟨move, mem, among⟩⟩
        exact ⟨listed _ (by simp), listed _ (by simp)⟩
      rw [Option.bind_some, Option.bind_some, applyRetargets, lookup_foldl_insert ?_,
        lookup_foldl_erase ?_]
      · intro mem
        obtain ⟨move, mem, same⟩ := mem_map.mp mem
        exact (touched mem).1 same.symm
      · intro mem
        rw [map_map] at mem
        obtain ⟨move, mem, same⟩ := mem_map.mp mem
        exact (touched mem).2 same.symm

end Kept

end Microide.Editor
