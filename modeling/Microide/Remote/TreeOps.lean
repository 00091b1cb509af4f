/-
The replay of local tree operations.

`TreeOpNow` and `DeleteTreeNow`: a rename or a delete already made in the mirror's tree is
made on the host, and the entries follow the host's answer.

**Main results.** `subtreeScan_eq_iff`: the scan finds the whole subtree exactly where no
sibling sorts into it; `treeOps_exact_iff`: when a rename or a delete the host accepts
moves, or drops, exactly the entries at or under its path.
-/

import Microide.Remote.MirrorStore

namespace Microide.Remote

open List Lib

/-! ### The host's answers -/

inductive WriteStatus where
  | ok
  | conflict
  | error

/-- `RemoteWorkspace::WriteResult`: how the host answered a write or a tree operation. -/
structure WriteResult (Hash : Type) where
  status : WriteStatus := .error
  /-- Ok: what the path holds now. Conflict: what is there instead. -/
  hash : Option Hash := none
  /-- The request never got an answer. -/
  unreachable : Bool := false
  /-- Unreachable after the request went out. -/
  mayHaveApplied : Bool := false
  /-- The host's newest manifest once the write was done. -/
  manifestId : Nat := 0

variable {Hash : Type} [DecidableEq Hash] [ContentHashing Hash]

/-! ### Renames -/

/-- The keys a scan from `path` finds at or under it: it ends at the first that is not. -/
def subtreeScan {ν : Type} (entries : OrderedTable Path ν) (path : Path) : List Path :=
  ((entries.lowerBound path).takeWhile fun row => atOrUnder path row.1).map Prod.fst

/-- `new_path + key.substr(path.size())`. -/
def rekey (path newPath key : Path) : Path := newPath ++ key.drop path.length

/-- Extract the row at `key` and insert it under its new name. -/
def moveEntry {ν : Type} (path newPath : Path) (entries : OrderedTable Path ν) (key : Path) :
    OrderedTable Path ν :=
  match entries.find key with
  | none => entries
  | some entry => (entries.erase key).insert (rekey path newPath key) entry

/-- A refused rename parks a copy at the new name, as a conflict. -/
def parkMoved (path newPath : Path) (entries : Entries Hash) (key : Path) : Entries Hash :=
  let moved := entries.at key
  entries.set (rekey path newPath key)
    { moved with
      hasRemote := false
      base := none
      pushPending := false
      conflict := true
      renamedFrom := key }

/-- A rename of one file is checked against its base, a directory's against nothing. -/
def renameExpect (entries : Entries Hash) (path : Path) : Precondition Hash :=
  match (entries.find path).bind Entry.base with
  | some base => .of base
  | none => .anything

/-- The rename branch of `TreeOpNow` once the host has answered; `false` where the host is
out of reach and the operation stays journaled. -/
def renameAnswered (entries : Entries Hash) (path newPath : Path) (result : WriteResult Hash) :
    Entries Hash × Bool :=
  if result.unreachable then (entries, false)
  else
    let affected := subtreeScan entries path
    match result.status with
    | .ok => (affected.foldl (moveEntry path newPath) entries, true)
    | .error => (entries, true)
    | .conflict => (affected.foldl (parkMoved path newPath) entries, true)

/-! ### Deletes -/

/-- One file or link of the delete, with the version of it that is deleted. -/
structure DeleteItem (Hash : Type) where
  path : Path
  expect : Precondition Hash

def deleteExpect (entry : Entry Hash) : Precondition Hash :=
  match entry.base with
  | some base => .of base
  | none =>
      if entry.hasRemote && entry.remote.kind = .file then .of entry.remote.hash else .anything

def deleteItems (entries : Entries Hash) (path : Path) : List (DeleteItem Hash) :=
  ((entries.lowerBound path).takeWhile fun row => atOrUnder path row.1).map fun row =>
    ⟨row.1, deleteExpect row.2⟩

/-- What one answer does to its entry. -/
def itemAnswered (answer : DeleteItem Hash → WriteResult Hash) (entries : Entries Hash)
    (item : DeleteItem Hash) : Entries Hash :=
  let result := answer item
  if result.unreachable then entries
  else
    match entries.find item.path with
    | none => entries
    | some entry =>
        match result.status, result.hash with
        | .ok, _ => entries.erase item.path
        | .conflict, none => entries.erase item.path
        | .conflict, some _ =>
            entries.set item.path { entry with conflict := true, pushPending := false }
        | .error, _ => entries

/-- The directories between `path` and one of its items, `path` itself left out. -/
def itemDirectories (path : Path) (item : DeleteItem Hash) : List Path :=
  (parents item.path).filter fun dir => path.length < dir.length

/-- The directories to delete once the files are gone, deepest first. -/
def deleteDirectories (path : Path) (items : List (DeleteItem Hash)) : List Path :=
  let isDirectory : Bool :=
    match items with
    | [item] => item.path ≠ path
    | _ => true
  if isDirectory then
    (path :: (items.map (itemDirectories path)).flatten).dedup.mergeSort
      fun a b => b.length ≤ a.length
  else []

/-- `DeleteTreeNow`. `answer` is the host's answer for each item, nothing where they did
not all come in time, and `directoryAnswer` that for each directory. -/
def deleteTreeNow (entries : Entries Hash) (path : Path)
    (answer : Option (DeleteItem Hash → WriteResult Hash))
    (directoryAnswer : Path → WriteResult Hash) : Entries Hash × Bool :=
  let items := deleteItems entries path
  match answer with
  | none => (entries, false)
  | some answer =>
      let entries := items.foldl (itemAnswered answer) entries
      if items.any fun item => (answer item).unreachable then (entries, false)
      else (entries, (deleteDirectories path items).all fun dir =>
        !(directoryAnswer dir).unreachable)

/-! ### The operations -/

inductive LocalTreeOp where
  | createFile (path : Path)
  | createDirectory (path : Path)
  | rename (path newPath : Path)
  | delete (path : Path)

/-- What the host answers each request of a tree operation. -/
structure HostAnswers (Hash : Type) where
  makeDirectory : Path → WriteResult Hash
  rename : Path → Path → Precondition Hash → WriteResult Hash
  deleteFiles : Option (DeleteItem Hash → WriteResult Hash)
  deleteDirectory : Path → WriteResult Hash

/-- `TreeOpNow`; `false` where the host is out of reach and the operation stays journaled.
`pushNow` is the push a created file is. -/
def treeOpNow (pushNow : Path → Entries Hash → Entries Hash) (host : HostAnswers Hash)
    (entries : Entries Hash) : LocalTreeOp → Entries Hash × Bool
  | .createFile path =>
      if isSafeRelativePath path then (pushNow path entries, true) else (entries, true)
  | .createDirectory path =>
      if isSafeRelativePath path then (entries, !(host.makeDirectory path).unreachable)
      else (entries, true)
  | .delete path =>
      if isSafeRelativePath path then
        deleteTreeNow entries path host.deleteFiles host.deleteDirectory
      else (entries, true)
  | .rename path newPath =>
      if isSafeRelativePath path && isSafeRelativePath newPath then
        renameAnswered entries path newPath
          (host.rename path newPath (renameExpect entries path))
      else (entries, true)

/-! ### Paths under a path -/

variable {key : Path}

theorem atOrUnder_eq_append {path : Path} (h : atOrUnder path key) :
    key = path ++ key.drop path.length := by
  have start : path <+: key := by
    rcases Bool.or_eq_true _ _ |>.mp h with same | under
    · exact (of_decide_eq_true same) ▸ prefix_rfl
    · exact (prefix_append path [slash]).trans (List.isPrefixOf_iff_prefix.mp under)
  exact (prefix_iff_eq_append.mp start).symm

theorem le_of_atOrUnder {path : Path} (h : atOrUnder path key) : path ≤ key := by
  rw [atOrUnder_eq_append h]
  exact not_lt.mp (IsPrefix.le (α := UInt8) (prefix_append _ _))

/-! ### The scan -/

/-- The keys at or under a path. -/
def subtreeKeys {ν : Type} (entries : OrderedTable Path ν) (path : Path) : List Path :=
  entries.keys.filter fun key => atOrUnder path key

/-- No key outside the subtree of `path` sorts between `path` and a key of it. -/
def NoSiblingBetween {ν : Type} (entries : OrderedTable Path ν) (path : Path) : Prop :=
  ∀ sibling ∈ entries.keys, ∀ key ∈ entries.keys,
    path < sibling → sibling < key → atOrUnder path key → atOrUnder path sibling

instance {ν : Type} (entries : OrderedTable Path ν) (path : Path) :
    Decidable (NoSiblingBetween entries path) := by
  unfold NoSiblingBetween; infer_instance

section Scan

variable {ν : Type} {entries : OrderedTable Path ν} {path : Path}

theorem mem_subtreeKeys :
    key ∈ subtreeKeys entries path ↔ key ∈ entries.keys ∧ atOrUnder path key := by
  simp [subtreeKeys]

theorem subtreeScan_eq_takeWhile : subtreeScan entries path =
      (entries.keys.filter fun key => path ≤ key).takeWhile fun key => atOrUnder path key := by
  rw [subtreeScan, OrderedTable.lowerBound_eq_filter, OrderedTable.keys, filter_map, takeWhile_map]
  rfl

theorem subtreeKeys_eq_filter_filter : subtreeKeys entries path =
      (entries.keys.filter fun key => path ≤ key).filter fun key => atOrUnder path key := by
  rw [subtreeKeys, filter_filter]
  refine filter_congr fun key _ => ?_
  by_cases under : atOrUnder path key
  · simp [le_of_atOrUnder under]
  · simp [under]

/-- The scan finds the whole subtree exactly where no sibling sorts into it. -/
theorem subtreeScan_eq_iff :
    subtreeScan entries path = subtreeKeys entries path ↔ NoSiblingBetween entries path := by
  have sorted : (entries.keys.filter fun key => decide (path ≤ key)).Pairwise (· < ·) :=
    entries.keys_sorted.filter _
  rw [subtreeScan_eq_takeWhile, subtreeKeys_eq_filter_filter, takeWhile_eq_filter_iff,
    pairwise_iff_of_sorted sorted]
  simp only [mem_filter, decide_eq_true_eq]
  constructor
  · intro h sibling memS key memK lt lt' under
    exact h sibling ⟨memS, lt.le⟩ key ⟨memK, (lt.trans lt').le⟩ lt' under
  · rintro h sibling ⟨memS, le⟩ key ⟨memK, -⟩ lt under
    rcases le.lt_or_eq with below | rfl
    · exact h sibling memS key memK below lt under
    · simp [atOrUnder]

theorem subtreeScan_sublist : (subtreeScan entries path).Sublist (subtreeKeys entries path) := by
  rw [subtreeScan_eq_takeWhile, subtreeKeys_eq_filter_filter]
  have all := takeWhile_sublist (fun key => atOrUnder path key)
    (l := entries.keys.filter fun key => decide (path ≤ key))
  have kept := all.filter fun key => atOrUnder path key
  rwa [filter_eq_self.mpr fun key mem => mem_takeWhile_imp mem] at kept

theorem subtreeScan_eq_of_subset
    (all : ∀ key ∈ subtreeKeys entries path, key ∈ subtreeScan entries path) :
    subtreeScan entries path = subtreeKeys entries path := by
  have sorted : (subtreeKeys entries path).Pairwise (· < ·) := entries.keys_sorted.filter _
  refine eq_of_sorted (sorted.sublist subtreeScan_sublist) sorted fun key => ?_
  exact ⟨fun mem => subtreeScan_sublist.subset mem, all key⟩

end Scan

/-! ### Moving one entry -/

theorem rekey_self {path : Path} (h : atOrUnder path key) : rekey path path key = key :=
  (atOrUnder_eq_append h).symm

theorem rekey_injective {path newPath a b : Path} (ha : atOrUnder path a) (hb : atOrUnder path b)
    (same : rekey path newPath a = rekey path newPath b) : a = b := by
  rw [atOrUnder_eq_append ha, atOrUnder_eq_append hb, append_cancel_left same]

section Moves

variable {ν : Type} {path newPath : Path}

/-- A row of the table once the keys of `moved` carry their new names. -/
def movedRow (path newPath : Path) (moved : List Path) (row : Path × ν) : Path × ν :=
  if row.1 ∈ moved then (rekey path newPath row.1, row.2) else row

/-- Every key in turn finds its new name free. -/
def AllFree (path newPath : Path) (entries : OrderedTable Path ν) : List Path → Prop
  | [] => True
  | key :: rest =>
      (entries.erase key).find (rekey path newPath key) = none ∧
        AllFree path newPath (moveEntry path newPath entries key) rest

theorem moveEntry_of_free {entries : OrderedTable Path ν} {key : Path} {entry : ν}
    (found : entries.find key = some entry)
    (free : (entries.erase key).find (rekey path newPath key) = none) :
    moveEntry path newPath entries key =
      (entries.erase key).set (rekey path newPath key) entry := by
  simp [moveEntry, found, OrderedTable.insert, free]

/-- A free move renames one row. -/
theorem moveEntry_perm {entries : OrderedTable Path ν} {key : Path} {entry : ν}
    (found : entries.find key = some entry)
    (free : (entries.erase key).find (rekey path newPath key) = none) :
    (moveEntry path newPath entries key).rows.Perm
      (entries.rows.map (movedRow path newPath [key])) := by
  have others : (entries.erase key).rows.map (movedRow path newPath [key]) =
      (entries.erase key).rows := by
    refine (map_congr_left fun row mem => ?_).trans (map_id _)
    simp [movedRow, (OrderedTable.mem_erase.mp mem).2]
  rw [moveEntry_of_free found free]
  refine (OrderedTable.set_rows_perm entry free).trans ?_
  refine List.Perm.trans ?_ ((OrderedTable.erase_rows_perm found).map _).symm
  rw [map_cons, others]
  simp [movedRow]

theorem length_moveEntry (path newPath : Path) {entries : OrderedTable Path ν} {key : Path}
    {entry : ν} (found : entries.find key = some entry) :
    (moveEntry path newPath entries key).rows.length ≤ entries.rows.length ∧
      ((moveEntry path newPath entries key).rows.length = entries.rows.length ↔
        (entries.erase key).find (rekey path newPath key) = none) := by
  have erased := (OrderedTable.erase_rows_perm found).length_eq
  rw [length_cons] at erased
  cases taken : (entries.erase key).find (rekey path newPath key) with
  | none =>
    have set := (OrderedTable.set_rows_perm entry taken).length_eq
    rw [moveEntry_of_free found taken]
    simp [set, erased]
  | some other =>
    have kept : moveEntry path newPath entries key = entries.erase key := by
      simp [moveEntry, found, OrderedTable.insert, taken]
    rw [kept]
    constructor
    · omega
    · simp [erased]

/-- Moving one key leaves the others where they are. -/
theorem find_moveEntry_of_ne {entries : OrderedTable Path ν} {key other : Path} {entry : ν}
    (found : entries.find other = some entry) (ne : other ≠ key) :
    (moveEntry path newPath entries key).find other = some entry := by
  unfold moveEntry
  cases at_key : entries.find key with
  | none => exact found
  | some moved =>
    have still : (entries.erase key).find other = some entry := by
      rw [OrderedTable.find_erase_of_ne _ ne, found]
    unfold OrderedTable.insert
    cases taken : (entries.erase key).find (rekey path newPath key) with
    | some _ => exact still
    | none =>
      have apart : other ≠ rekey path newPath key := by
        rintro rfl
        rw [still] at taken
        cases taken
      simpa [OrderedTable.find_set_of_ne _ _ apart] using still

theorem mem_keys_moveEntry {entries : OrderedTable Path ν} {key other : Path} {entry : ν}
    (found : entries.find key = some entry)
    (free : (entries.erase key).find (rekey path newPath key) = none) :
    other ∈ (moveEntry path newPath entries key).keys ↔
      other = rekey path newPath key ∨ (other ∈ entries.keys ∧ other ≠ key) := by
  rw [moveEntry_of_free found free]
  simp only [OrderedTable.mem_keys, OrderedTable.find_set]
  by_cases new : other = rekey path newPath key
  · simp [new]
  · by_cases same : other = key
    · simp [same]
    · simp [new, same]

/-! ### Moving the scanned entries -/

theorem found_of_mem_keys {entries : OrderedTable Path ν} (mem : key ∈ entries.keys) :
    ∃ entry, entries.find key = some entry :=
  OrderedTable.mem_keys.mp mem

/-- Moves never add rows, and lose none exactly where every new name was free. -/
theorem length_foldl_moveEntry {keys : List Path} (nodup : keys.Nodup) :
    ∀ {entries : OrderedTable Path ν}, (∀ key ∈ keys, key ∈ entries.keys) →
      (keys.foldl (moveEntry path newPath) entries).rows.length ≤ entries.rows.length ∧
        ((keys.foldl (moveEntry path newPath) entries).rows.length = entries.rows.length ↔
          AllFree path newPath entries keys) := by
  induction keys with
  | nil => simp [AllFree]
  | cons key rest ih =>
    intro entries listed
    obtain ⟨fresh, nodup⟩ := nodup_cons.mp nodup
    obtain ⟨entry, found⟩ := found_of_mem_keys (listed key mem_cons_self)
    have still : ∀ other ∈ rest, other ∈ (moveEntry path newPath entries key).keys := by
      intro other mem
      obtain ⟨value, at_other⟩ := found_of_mem_keys (listed other (mem_cons_of_mem _ mem))
      have ne : other ≠ key := fun same => fresh (same ▸ mem)
      exact OrderedTable.mem_keys.mpr ⟨value, find_moveEntry_of_ne at_other ne⟩
    obtain ⟨le, one⟩ := length_moveEntry path newPath found
    obtain ⟨le', all⟩ := ih nodup still
    rw [foldl_cons, AllFree, ← one, ← all]
    constructor
    · exact le'.trans le
    · omega

/-- Where every new name is free, the moves rename the rows of their keys. -/
theorem foldl_moveEntry_perm {keys : List Path} (nodup : keys.Nodup) :
    ∀ {entries : OrderedTable Path ν}, (∀ key ∈ keys, key ∈ entries.keys) →
      AllFree path newPath entries keys →
      (keys.foldl (moveEntry path newPath) entries).rows.Perm
        (entries.rows.map (movedRow path newPath keys)) := by
  induction keys with
  | nil =>
    intro entries _ _
    rw [map_congr_left (g := id) fun row _ => by simp [movedRow], map_id]
    exact .refl _
  | cons key rest ih =>
    rintro entries listed ⟨free, allFree⟩
    obtain ⟨fresh, nodup⟩ := nodup_cons.mp nodup
    obtain ⟨entry, found⟩ := found_of_mem_keys (listed key mem_cons_self)
    have others : ∀ other ∈ rest, other ∈ entries.keys ∧ other ≠ key := fun other mem =>
      ⟨listed other (mem_cons_of_mem _ mem), fun same => fresh (same ▸ mem)⟩
    have still : ∀ other ∈ rest, other ∈ (moveEntry path newPath entries key).keys :=
      fun other mem => (mem_keys_moveEntry found free).mpr (.inr (others other mem))
    -- A new name that is a later key would have been taken.
    have settled : rekey path newPath key ∉ rest := by
      intro mem
      obtain ⟨value, at_other⟩ := found_of_mem_keys (others _ mem).1
      rw [OrderedTable.find_erase_of_ne _ (others _ mem).2, at_other] at free
      cases free
    have composed : entries.rows.map (movedRow path newPath rest ∘ movedRow path newPath [key]) =
        entries.rows.map (movedRow path newPath (key :: rest)) := by
      refine map_congr_left fun row _ => ?_
      by_cases same : row.1 = key
      · simp [movedRow, same, settled]
      · simp [movedRow, same]
    have first := (moveEntry_perm found free).map (movedRow path newPath rest)
    rw [map_map, composed] at first
    exact (ih nodup still allFree).trans first

/-- In scan order a key is in the way of a move unless it moved before. -/
theorem allFree_iff (newPath : Path) {keys : List Path} (sorted : keys.Pairwise (· < ·))
    (under : ∀ key ∈ keys, atOrUnder path key) :
    ∀ {entries : OrderedTable Path ν}, (∀ key ∈ keys, key ∈ entries.keys) →
      (AllFree path newPath entries keys ↔
        ∀ key ∈ keys, rekey path newPath key ∈ entries.keys →
          rekey path newPath key ∈ keys ∧ rekey path newPath key ≤ key) := by
  induction keys with
  | nil => simp [AllFree]
  | cons key rest ih =>
    intro entries listed
    obtain ⟨before, sorted⟩ := pairwise_cons.mp sorted
    obtain ⟨entry, found⟩ := found_of_mem_keys (listed key mem_cons_self)
    have others : ∀ other ∈ rest, other ∈ entries.keys ∧ other ≠ key := fun other mem =>
      ⟨listed other (mem_cons_of_mem _ mem), (before other mem).ne'⟩
    have freeHere : (entries.erase key).find (rekey path newPath key) = none ↔
        (rekey path newPath key ∈ entries.keys → rekey path newPath key = key) := by
      rw [OrderedTable.find_erase, OrderedTable.mem_keys]
      by_cases same : rekey path newPath key = key
      · simp [same]
      · simp [same, Option.eq_none_iff_forall_not_mem]
    have still : (entries.erase key).find (rekey path newPath key) = none →
        ∀ other ∈ rest, other ∈ (moveEntry path newPath entries key).keys :=
      fun free other mem => (mem_keys_moveEntry found free).mpr (.inr (others other mem))
    have under' : ∀ other ∈ rest, atOrUnder path other := fun other mem =>
      under other (mem_cons_of_mem _ mem)
    constructor
    · rintro ⟨free, all⟩ other mem taken
      rcases mem_cons.mp mem with rfl | mem
      · rw [freeHere.mp free taken]
        exact ⟨mem_cons_self, le_rfl⟩
      · by_cases same : rekey path newPath other = key
        · rw [same]
          exact ⟨mem_cons_self, (before other mem).le⟩
        · have later := (ih sorted under' (still free)).mp all other mem
            ((mem_keys_moveEntry found free).mpr (.inr ⟨taken, same⟩))
          exact ⟨mem_cons_of_mem _ later.1, later.2⟩
    · intro h
      have free : (entries.erase key).find (rekey path newPath key) = none := by
        refine freeHere.mpr fun taken => ?_
        obtain ⟨mem, le⟩ := h key mem_cons_self taken
        rcases mem_cons.mp mem with same | mem
        · exact same
        · exact absurd le (not_le.mpr (before _ mem))
      refine ⟨free, (ih sorted under' (still free)).mpr fun other mem taken => ?_⟩
      rcases (mem_keys_moveEntry found free).mp taken with new | ⟨taken, ne⟩
      · exact absurd (rekey_injective (under' other mem) (under key mem_cons_self) new)
          (others other mem).2
      · obtain ⟨mem', le⟩ := h other (mem_cons_of_mem _ mem) taken
        exact ⟨(mem_cons.mp mem').resolve_left ne, le⟩

/-! ### What a rename moves -/

/-- A row of the table once the whole subtree of `path` carries its new names. -/
def rekeyRow (path newPath : Path) (row : Path × ν) : Path × ν :=
  if atOrUnder path row.1 then (rekey path newPath row.1, row.2) else row

/-- The new name of no entry is taken, unless by one that is moved away before it. -/
def NewNamesFree (entries : OrderedTable Path ν) (path newPath : Path) : Prop :=
  ∀ key ∈ entries.keys, atOrUnder path key → rekey path newPath key ∈ entries.keys →
    atOrUnder path (rekey path newPath key) ∧ rekey path newPath key ≤ key

instance (entries : OrderedTable Path ν) (path newPath : Path) :
    Decidable (NewNamesFree entries path newPath) := by
  unfold NewNamesFree; infer_instance

theorem length_rekey (newPath : Path) (under : atOrUnder path key) :
    (rekey path newPath key).length + path.length = key.length + newPath.length := by
  have split := congrArg List.length (atOrUnder_eq_append under)
  rw [length_append] at split
  rw [rekey, length_append]
  omega

/-- Renaming only part of a subtree is not renaming all of it, unless to its own name. -/
theorem eq_or_scan_of_perm {entries : OrderedTable Path ν}
    (perm : (entries.rows.map (movedRow path newPath (subtreeScan entries path))).Perm
      (entries.rows.map (rekeyRow path newPath))) :
    path = newPath ∨ subtreeScan entries path = subtreeKeys entries path := by
  by_contra! h
  obtain ⟨ne, missed⟩ := h
  obtain ⟨key, mem, unscanned⟩ : ∃ key ∈ subtreeKeys entries path,
      key ∉ subtreeScan entries path := by
    by_contra! all
    exact missed (subtreeScan_eq_of_subset all)
  obtain ⟨listed, under⟩ := mem_subtreeKeys.mp mem
  obtain ⟨entry, found⟩ := found_of_mem_keys listed
  have row := OrderedTable.find_eq_some.mp found
  have stays : movedRow path newPath (subtreeScan entries path) (key, entry) = (key, entry) := by
    simp [movedRow, unscanned]
  have leaves : rekeyRow path newPath (key, entry) = (rekey path newPath key, entry) := by
    simp [rekeyRow, under]
  -- The two sides differ only at keys the scan missed.
  have apart : ∀ row ∈ entries.rows,
      movedRow path newPath (subtreeScan entries path) row = rekeyRow path newPath row ∨
        (movedRow path newPath (subtreeScan entries path) row = row ∧ atOrUnder path row.1 ∧
          rekeyRow path newPath row = (rekey path newPath row.1, row.2)) := by
    intro row _
    by_cases scanned : row.1 ∈ subtreeScan entries path
    · have under := (mem_subtreeKeys.mp (subtreeScan_sublist.subset scanned)).2
      exact .inl (by simp [movedRow, rekeyRow, scanned, under])
    · by_cases under : atOrUnder path row.1
      · exact .inr (by simp [movedRow, rekeyRow, scanned, under])
      · exact .inl (by simp [movedRow, rekeyRow, scanned, under])
  have grows : ∀ w : Path → Nat,
      (∀ key, atOrUnder path key → w key ≤ w (rekey path newPath key)) →
        w key = w (rekey path newPath key) := by
    intro w le
    have same := weight_eq_of_perm (fun row : Path × ν => w row.1) perm ?_ _ row
    · rwa [stays, leaves] at same
    · intro row mem
      rcases apart row mem with same | ⟨same, under, new⟩
      · rw [same]
      · rw [same, new]
        exact le row.1 under
  have shrinks : ∀ w : Path → Nat,
      (∀ key, atOrUnder path key → w (rekey path newPath key) ≤ w key) →
        w (rekey path newPath key) = w key := by
    intro w le
    have same := weight_eq_of_perm (fun row : Path × ν => w row.1) perm.symm ?_ _ row
    · rwa [stays, leaves] at same
    · intro row mem
      rcases apart row mem with same | ⟨same, under, new⟩
      · rw [same]
      · rw [same, new]
        exact le row.1 under
  have moved := length_rekey newPath under
  have lengths : path.length = newPath.length := by
    rcases Nat.le_total path.length newPath.length with shorter | longer
    · have := grows List.length fun key under => by
        have := length_rekey newPath under
        omega
      omega
    · have := shrinks List.length fun key under => by
        have := length_rekey newPath under
        omega
      omega
  -- Under names of one length the new names start with `newPath`, the old ones with `path`.
  have old : ∀ key, atOrUnder path key → key.take path.length = path := fun key under => by
    rw [atOrUnder_eq_append under, take_left']
    rfl
  have new : ∀ key, (rekey path newPath key).take path.length = newPath := fun key => by
    rw [rekey, take_left' lengths.symm]
  have same := grows (fun key => if key.take path.length = newPath then 1 else 0) fun key under => by
    simp [new]
    split <;> omega
  simp [old key under, new key, ne] at same

/-- A rename of the scanned entries renames exactly the subtree. -/
theorem foldl_moveEntry_exact_iff {entries : OrderedTable Path ν} :
    ((subtreeScan entries path).foldl (moveEntry path newPath) entries).rows.Perm
        (entries.rows.map (rekeyRow path newPath)) ↔
      path = newPath ∨ (NoSiblingBetween entries path ∧ NewNamesFree entries path newPath) := by
  have sorted : (subtreeScan entries path).Pairwise (· < ·) :=
    Pairwise.sublist subtreeScan_sublist (entries.keys_sorted.filter _)
  have nodup : (subtreeScan entries path).Nodup := sorted.imp fun lt => lt.ne
  have listed : ∀ key ∈ subtreeScan entries path, key ∈ entries.keys := fun key mem =>
    (mem_subtreeKeys.mp (subtreeScan_sublist.subset mem)).1
  have under : ∀ key ∈ subtreeScan entries path, atOrUnder path key := fun key mem =>
    (mem_subtreeKeys.mp (subtreeScan_sublist.subset mem)).2
  have freeIff := allFree_iff newPath sorted under listed
  constructor
  · intro perm
    have allFree : AllFree path newPath entries (subtreeScan entries path) :=
      (length_foldl_moveEntry nodup listed).2.mp (by simpa using perm.length_eq)
    have moved := foldl_moveEntry_perm nodup listed allFree
    rcases eq_or_scan_of_perm (moved.symm.trans perm) with same | whole
    · exact .inl same
    · refine .inr ⟨subtreeScan_eq_iff.mp whole, ?_⟩
      rw [whole] at freeIff allFree
      intro key mem under taken
      obtain ⟨mem', le⟩ := freeIff.mp allFree key (mem_subtreeKeys.mpr ⟨mem, under⟩) taken
      exact ⟨(mem_subtreeKeys.mp mem').2, le⟩
  · rintro (rfl | ⟨clear, names⟩)
    · have allFree : AllFree path path entries (subtreeScan entries path) := by
        refine freeIff.mpr fun key mem _ => ?_
        rw [rekey_self (under key mem)]
        exact ⟨mem, le_rfl⟩
      refine (foldl_moveEntry_perm nodup listed allFree).trans (.of_eq ?_)
      refine map_congr_left fun row _ => ?_
      unfold movedRow rekeyRow
      split
      next scanned => simp [under row.1 scanned]
      next =>
        split
        next here => rw [rekey_self here]
        next => rfl
    · have whole := subtreeScan_eq_iff.mpr clear
      rw [whole] at freeIff nodup listed ⊢
      have allFree : AllFree path newPath entries (subtreeKeys entries path) := by
        refine freeIff.mpr fun key mem taken => ?_
        obtain ⟨listed, under⟩ := mem_subtreeKeys.mp mem
        obtain ⟨under', le⟩ := names key listed under taken
        exact ⟨mem_subtreeKeys.mpr ⟨taken, under'⟩, le⟩
      refine (foldl_moveEntry_perm nodup listed allFree).trans (.of_eq ?_)
      refine map_congr_left fun row mem => ?_
      have key : row.1 ∈ entries.keys := mem_map_of_mem mem
      simp [movedRow, rekeyRow, mem_subtreeKeys, key]

end Moves

/-! ### What a delete drops -/

/-- The host deleted the item, or had nothing there. -/
def Deleted (result : WriteResult Hash) : Prop :=
  result.unreachable = false ∧
    (result.status = .ok ∨ (result.status = .conflict ∧ result.hash = none))

omit [DecidableEq Hash] [ContentHashing Hash] in
theorem deleteItems_map_path (entries : Entries Hash) (path : Path) :
    (deleteItems entries path).map DeleteItem.path = subtreeScan entries path := by
  simp only [deleteItems, subtreeScan, map_map]
  rfl

omit [DecidableEq Hash] [ContentHashing Hash] in
theorem itemAnswered_of_deleted {answer : DeleteItem Hash → WriteResult Hash}
    (entries : Entries Hash) {item : DeleteItem Hash} (deleted : Deleted (answer item)) :
    itemAnswered answer entries item = entries.erase item.path := by
  obtain ⟨reached, gone⟩ := deleted
  cases found : entries.find item.path with
  | none => simp [itemAnswered, reached, found, OrderedTable.erase_of_find_none found]
  | some entry =>
    rcases gone with ok | ⟨conflict, nothing⟩
    · simp [itemAnswered, reached, found, ok]
    · simp [itemAnswered, reached, found, conflict, nothing]

omit [DecidableEq Hash] [ContentHashing Hash] in
theorem foldl_itemAnswered {answer : DeleteItem Hash → WriteResult Hash}
    {items : List (DeleteItem Hash)} (deleted : ∀ item ∈ items, Deleted (answer item)) :
    ∀ entries : Entries Hash, items.foldl (itemAnswered answer) entries =
      (items.map DeleteItem.path).foldl OrderedTable.erase entries := by
  induction items with
  | nil => exact fun _ => rfl
  | cons item rest ih =>
    intro entries
    rw [foldl_cons, itemAnswered_of_deleted entries (deleted item mem_cons_self),
      ih fun item mem => deleted item (mem_cons_of_mem _ mem)]
    rfl

omit [DecidableEq Hash] [ContentHashing Hash] in
/-- A delete the host carries out drops the rows of the scanned keys. -/
theorem deleteTreeNow_rows {entries : Entries Hash} {path : Path}
    {answer : DeleteItem Hash → WriteResult Hash} {directoryAnswer : Path → WriteResult Hash}
    (deleted : ∀ item ∈ deleteItems entries path, Deleted (answer item)) :
    (deleteTreeNow entries path (some answer) directoryAnswer).1.rows =
      entries.rows.filter fun row => row.1 ∉ subtreeScan entries path := by
  have table : (deleteTreeNow entries path (some answer) directoryAnswer).1 =
      (deleteItems entries path).foldl (itemAnswered answer) entries := by
    unfold deleteTreeNow
    dsimp only
    split <;> rfl
  rw [table, foldl_itemAnswered deleted, OrderedTable.foldl_erase_rows, deleteItems_map_path]
  exact filter_congr fun row _ => decide_eq_decide.mpr Iff.rfl

theorem filter_scan_eq_iff {ν : Type} {entries : OrderedTable Path ν} {path : Path} :
    (entries.rows.filter fun row => row.1 ∉ subtreeScan entries path) =
        (entries.rows.filter fun row => !atOrUnder path row.1) ↔
      NoSiblingBetween entries path := by
  rw [← subtreeScan_eq_iff]
  constructor
  · intro same
    refine subtreeScan_eq_of_subset fun key mem => ?_
    obtain ⟨listed, under⟩ := mem_subtreeKeys.mp mem
    obtain ⟨value, found⟩ := found_of_mem_keys listed
    by_contra missed
    have kept : (key, value) ∈ entries.rows.filter fun row => row.1 ∉ subtreeScan entries path :=
      mem_filter.mpr ⟨OrderedTable.find_eq_some.mp found, by simpa using missed⟩
    rw [same] at kept
    simpa [under] using (mem_filter.mp kept).2
  · intro whole
    refine filter_congr fun row mem => ?_
    have key : row.1 ∈ entries.keys := mem_map_of_mem mem
    simp [whole, mem_subtreeKeys, key]

/-! ### Exactly the subtree -/

omit [DecidableEq Hash] in
/-- When the replay of an accepted rename or delete moves, or drops, exactly the entries at
or under its path. -/
theorem treeOps_exact_iff (pushNow : Path → Entries Hash → Entries Hash)
    (host : HostAnswers Hash) (entries : Entries Hash) {path : Path}
    (safe : isSafeRelativePath path) :
    (∀ newPath, isSafeRelativePath newPath →
      (host.rename path newPath (renameExpect entries path)).unreachable = false →
      (host.rename path newPath (renameExpect entries path)).status = .ok →
      ((treeOpNow pushNow host entries (.rename path newPath)).1.rows.Perm
          (entries.rows.map (rekeyRow path newPath)) ↔
        path = newPath ∨
          (NoSiblingBetween entries path ∧ NewNamesFree entries path newPath))) ∧
    ∀ answer, host.deleteFiles = some answer →
      (∀ item ∈ deleteItems entries path, Deleted (answer item)) →
      ((treeOpNow pushNow host entries (.delete path)).1.rows =
          (entries.rows.filter fun row => !atOrUnder path row.1) ↔
        NoSiblingBetween entries path) := by
  constructor
  · intro newPath safe' reached accepted
    have moved : (treeOpNow pushNow host entries (.rename path newPath)).1 =
        (subtreeScan entries path).foldl (moveEntry path newPath) entries := by
      simp [treeOpNow, safe, safe', renameAnswered, reached, accepted]
    rw [moved]
    exact foldl_moveEntry_exact_iff
  · intro answer answered deleted
    have dropped : (treeOpNow pushNow host entries (.delete path)).1 =
        (deleteTreeNow entries path (some answer) host.deleteDirectory).1 := by
      simp [treeOpNow, safe, answered]
    rw [dropped, deleteTreeNow_rows deleted]
    exact filter_scan_eq_iff

/-- A table of new entries at the given paths. -/
def entriesAt (paths : List Path) : Entries Content :=
  paths.foldl (fun entries path => entries.set path .fresh) .empty

/-- A host that carries out every request. -/
def acceptingHost : HostAnswers Content where
  makeDirectory _ := { status := .ok }
  rename _ _ _ := { status := .ok }
  deleteFiles := some fun _ => { status := .ok }
  deleteDirectory _ := { status := .ok }

/-- A directory `a` with one file, and nothing that sorts between. -/
theorem treeOps_exact_iff_directory :
    (treeOpNow (fun _ => id) acceptingHost (entriesAt [[0x61, 0x2F, 0x66], [0x62]])
        (.rename [0x61] [0x63])).1.rows.Perm
      ((entriesAt [[0x61, 0x2F, 0x66], [0x62]]).rows.map (rekeyRow [0x61] [0x63])) ∧
    (treeOpNow (fun _ => id) acceptingHost (entriesAt [[0x61, 0x2F, 0x66], [0x62]])
        (.delete [0x61])).1.rows =
      (entriesAt [[0x61, 0x2F, 0x66], [0x62]]).rows.filter fun row => !atOrUnder [0x61] row.1 := by
  have safe : isSafeRelativePath [0x61] := by decide +kernel
  obtain ⟨renames, deletes⟩ := treeOps_exact_iff (fun _ => id) acceptingHost
    (entriesAt [[0x61, 0x2F, 0x66], [0x62]]) safe
  constructor
  · exact (renames [0x63] (by decide +kernel) rfl rfl).mpr (by decide +kernel)
  · refine (deletes (fun _ => { status := .ok }) rfl fun _ _ => ?_).mpr (by decide +kernel)
    exact ⟨rfl, .inl rfl⟩

/-- `a-x` sorts between `a` and `a/f`: the scan from `a` ends there, and the file under the
directory is neither moved nor dropped. -/
theorem scan_ends_at_sibling :
    ¬ (treeOpNow (fun _ => id) acceptingHost
          (entriesAt [[0x61, 0x2D, 0x78], [0x61, 0x2F, 0x66]]) (.rename [0x61] [0x62])).1.rows.Perm
        ((entriesAt [[0x61, 0x2D, 0x78], [0x61, 0x2F, 0x66]]).rows.map (rekeyRow [0x61] [0x62])) ∧
    (treeOpNow (fun _ => id) acceptingHost
          (entriesAt [[0x61, 0x2D, 0x78], [0x61, 0x2F, 0x66]]) (.delete [0x61])).1.rows ≠
        (entriesAt [[0x61, 0x2D, 0x78], [0x61, 0x2F, 0x66]]).rows.filter
          fun row => !atOrUnder [0x61] row.1 := by
  decide +kernel

end Microide.Remote
