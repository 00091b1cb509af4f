/-
What the host changed since the first sync.

A path the host changed holds one record: the kind of the change and the content the path had
before it. Later changes of the path are folded into the record, and the oldest record gives
way where there are too many.

**Main results.** `recordedRow_kinds`: what a manifest row records; `log_nets_iff`: when
the records of the paths are their net changes throughout.
-/

import Microide.Remote.MirrorStore

namespace Microide.Remote

open List Lib OrderedTable

inductive HostChangeKind where
  | added
  | modified
  | deleted
  deriving DecidableEq

structure HostChange (Hash : Type) where
  kind : HostChangeKind := .modified
  /-- The host's content before the change, when there was one. -/
  previous : Option Hash := none
  sequence : Nat := 0

structure HostChangeLog (Hash : Type) where
  changes : OrderedTable Path (HostChange Hash) := .empty
  sequence : Nat := 0
  hostChanges : Nat := 0
  hostChangedFiles : Nat := 0

def kMaxHostChanges : Nat := 2000

variable {Hash : Type}

/-- The path of the record with the smallest sequence. -/
def oldest : List (Path × HostChange Hash) → Option Path
  | [] => none
  | row :: rows =>
      some (rows.foldl (fun oldest row =>
        if row.2.sequence < oldest.2.sequence then row else oldest) row).1

/-- The record that gives way once the table is too large. -/
def evicted (changes : OrderedTable Path (HostChange Hash)) : Option Path :=
  if kMaxHostChanges < changes.rows.length then oldest changes.rows else none

namespace HostChangeLog

/-- A run of changes that comes to nothing the user ever had. -/
def Undone (log : HostChangeLog Hash) (path : Path) (kind : HostChangeKind) : Prop :=
  (log.changes.find path).map HostChange.kind = some .added ∧ kind = .deleted

instance decidableUndone (log : HostChangeLog Hash) (path : Path) (kind : HostChangeKind) :
    Decidable (log.Undone path kind) :=
  inferInstanceAs (Decidable (_ ∧ _))

/-- The record with the change folded into it. -/
def noted (log : HostChangeLog Hash) (path : Path) (kind : HostChangeKind)
    (previous : Option Hash) : HostChange Hash :=
  match log.changes.find path with
  | none => { kind := kind, previous := previous, sequence := log.sequence + 1 }
  | some change =>
      { change with
        kind :=
          if change.kind = .deleted ∧ kind = .added then .modified
          else if change.kind = .added then change.kind else kind
        sequence := log.sequence + 1 }

/-- The path whose record a change pushes out. -/
def evictedBy (log : HostChangeLog Hash) (path : Path) (kind : HostChangeKind)
    (previous : Option Hash) : Option Path :=
  if log.Undone path kind then none
  else evicted (log.changes.set path (log.noted path kind previous))

/-- `RecordHostChangeLocked`. -/
def recordHostChangeLocked (log : HostChangeLog Hash) (path : Path) (kind : HostChangeKind)
    (previous : Option Hash) : HostChangeLog Hash :=
  if log.Undone path kind then
    let changes := log.changes.erase path
    { log with
      changes := changes
      hostChanges := log.hostChanges + 1
      hostChangedFiles := changes.rows.length }
  else
    let changes := log.changes.set path (log.noted path kind previous)
    let changes :=
      match evicted changes with
      | none => changes
      | some oldest => changes.erase oldest
    { changes := changes
      sequence := log.sequence + 1
      hostChanges := log.hostChanges + 1
      hostChangedFiles := changes.rows.length }

end HostChangeLog

/-! ### Changes of one path -/

/-- A change of a path, by the file content on either side. -/
structure FileChange (Hash : Type) where
  before : Option Hash
  after : Option Hash
  changed : before ≠ after

namespace FileChange

def kind (change : FileChange Hash) : HostChangeKind :=
  match change.before, change.after with
  | none, _ => .added
  | some _, none => .deleted
  | some _, some _ => .modified

end FileChange

section Rows

variable [DecidableEq Hash]

/-- The file content an entry last had on the host. -/
def remoteFile (entry : Option (Entry Hash)) : Option Hash :=
  entry.bind fun entry =>
    if entry.hasRemote ∧ entry.remote.kind = .file then some entry.remote.hash else none

/-- The change `ReconcileRowLocked` records for a row after the first sync. -/
def recordedRow (entry : Option (Entry Hash)) (row : ManifestRow Hash) :
    Option (HostChangeKind × Option Hash) :=
  if row.kind = .file then
    match remoteFile entry with
    | none => some (.added, none)
    | some hash => if hash ≠ row.hash then some (.modified, some hash) else none
  else none

/-- The change `ReconcileDeleteLocked` records for a path the manifest no longer lists. -/
def recordedDelete (entry : Entry Hash) : Option (HostChangeKind × Option Hash) :=
  (remoteFile (some entry)).map fun hash => (.deleted, some hash)

/-- What a row records is a change of the path's file content. -/
theorem recordedRow_kinds {entry : Option (Entry Hash)} {row : ManifestRow Hash}
    {recorded : HostChangeKind × Option Hash} (records : recordedRow entry row = some recorded) :
    ∃ change : FileChange Hash, change.before = remoteFile entry ∧ change.after = some row.hash ∧
      recorded = (change.kind, change.before) := by
  unfold recordedRow at records
  split at records
  · cases had : remoteFile entry with
    | none =>
      rw [had] at records
      exact ⟨⟨none, some row.hash, nofun⟩, rfl, rfl, (Option.some.inj records).symm⟩
    | some hash =>
      rw [had] at records
      dsimp only at records
      split at records
      next moved =>
        exact ⟨⟨some hash, some row.hash, fun same => moved (Option.some.inj same)⟩, rfl, rfl,
          (Option.some.inj records).symm⟩
      · exact nomatch records
  · exact nomatch records

omit [DecidableEq Hash] in
theorem recordedDelete_kinds {entry : Entry Hash} {recorded : HostChangeKind × Option Hash}
    (records : recordedDelete entry = some recorded) :
    ∃ change : FileChange Hash, change.before = remoteFile (some entry) ∧ change.after = none ∧
      recorded = (change.kind, change.before) := by
  unfold recordedDelete at records
  cases had : remoteFile (some entry) with
  | none =>
    rw [had] at records
    exact nomatch records
  | some hash =>
    rw [had] at records
    exact ⟨⟨some hash, none, nofun⟩, rfl, rfl, (Option.some.inj records).symm⟩

end Rows

/-- What a record says of its path. -/
abbrev Said (Hash : Type) := Option (HostChangeKind × Option Hash)

/-- The net change of a path that held `before` and holds `after`. -/
def netChange : Option Hash → Option Hash → Said Hash
  | none, none => none
  | none, some _ => some (.added, none)
  | some before, none => some (.deleted, some before)
  | some before, some _ => some (.modified, some before)

/-- The net change of a run of changes. -/
def net : List (FileChange Hash) → Said Hash
  | [] => none
  | first :: rest => netChange first.before ((first :: rest).getLast (List.cons_ne_nil _ _)).after

/-- What the record of a path says after one more change. -/
def said (record : Said Hash) (change : FileChange Hash) : Said Hash :=
  match record with
  | none => some (change.kind, change.before)
  | some (.added, previous) =>
      if change.kind = .deleted then none else some (.added, previous)
  | some (.modified, previous) => some (change.kind, previous)
  | some (.deleted, previous) =>
      some (if change.kind = .added then .modified else change.kind, previous)

/-- Where a run began and ended with a file no file is added next, and where it began and ended
with none one is. -/
def Follows (seen : List (FileChange Hash)) (change : FileChange Hash) : Prop :=
  match net seen with
  | none => seen = [] ∨ change.kind = .added
  | some (.modified, _) => change.kind ≠ .added
  | some _ => True

/-- A record that was the net change stays it exactly where the change follows. -/
theorem said_net_iff {seen : List (FileChange Hash)} (right : seen.foldl said none = net seen)
    (change : FileChange Hash) :
    (seen ++ [change]).foldl said none = net (seen ++ [change]) ↔ Follows seen change := by
  obtain ⟨before, after, changed⟩ := change
  have sides : before = none → after ≠ none := fun none same => changed (none.trans same.symm)
  unfold Follows
  rw [foldl_append, foldl_cons, foldl_nil, right]
  cases seen with
  | nil =>
    cases before <;> cases after <;> simp [net, said, netChange, FileChange.kind] at sides ⊢
  | cons first rest =>
    rw [net, cons_append, net]
    simp only [← cons_append, getLast_append_singleton]
    generalize ((first :: rest).getLast (cons_ne_nil _ _)).after = reached
    cases first.before <;> cases reached <;> cases before <;> cases after <;>
      simp [said, netChange, FileChange.kind] at sides ⊢

/-! ### Logs of many paths -/

abbrev HostEvent (Hash : Type) := Path × FileChange Hash

namespace HostChangeLog

def record (log : HostChangeLog Hash) (event : HostEvent Hash) : HostChangeLog Hash :=
  log.recordHostChangeLocked event.1 event.2.kind event.2.before

/-- What the log tells of a path. -/
def told (log : HostChangeLog Hash) (path : Path) : Said Hash :=
  (log.changes.find path).map fun change => (change.kind, change.previous)

/-- No change of the run pushes out the record of `path`. -/
def Keeps (path : Path) : HostChangeLog Hash → List (HostEvent Hash) → Prop
  | _, [] => True
  | log, event :: rest =>
      log.evictedBy event.1 event.2.kind event.2.before ≠ some path ∧ Keeps path (log.record event) rest

end HostChangeLog

/-- The changes of one path among those of all. -/
def changesOf (path : Path) (events : List (HostEvent Hash)) : List (FileChange Hash) :=
  events.filterMap fun event => if event.1 = path then some event.2 else none

open HostChangeLog

theorem told_noted (log : HostChangeLog Hash) (path : Path) (change : FileChange Hash)
    (kept : ¬log.Undone path change.kind) : some ((log.noted path change.kind change.before).kind,
      (log.noted path change.kind change.before).previous) = said (log.told path) change := by
  unfold HostChangeLog.Undone at kept
  unfold HostChangeLog.noted HostChangeLog.told
  cases found : log.changes.find path with
  | none => rfl
  | some record =>
    rw [found] at kept
    obtain ⟨kind, previous, sequence⟩ := record
    cases kind with
    | added =>
      have stays : change.kind ≠ .deleted := fun deleted => kept ⟨rfl, deleted⟩
      simp [said, stays]
    | modified => simp [said]
    | deleted => simp [said]

/-- A change folds into the record of its path and leaves the others, but the one pushed out. -/
theorem told_record (log : HostChangeLog Hash) (event : HostEvent Hash) (path : Path)
    (kept : log.evictedBy event.1 event.2.kind event.2.before ≠ some path) :
    (log.record event).told path =
      if event.1 = path then said (log.told path) event.2 else log.told path := by
  obtain ⟨at_, change⟩ := event
  unfold HostChangeLog.evictedBy at kept
  unfold HostChangeLog.record HostChangeLog.recordHostChangeLocked
  by_cases undone : log.Undone at_ change.kind
  · rw [if_pos undone]
    unfold HostChangeLog.told
    by_cases same : at_ = path
    · subst same
      obtain ⟨added, deleted⟩ := undone
      obtain ⟨record, found, isAdded⟩ := Option.map_eq_some_iff.mp added
      rw [if_pos rfl, find_erase_self, found, Option.map_some, isAdded, said,
        if_pos deleted]
      rfl
    · rw [if_neg same, find_erase_of_ne _ (Ne.symm same)]
  · rw [if_neg undone] at kept ⊢
    have stored : ∀ changes : OrderedTable Path (HostChange Hash), evicted changes ≠ some path →
        (match evicted changes with
          | none => changes
          | some oldest => changes.erase oldest).find path = changes.find path := by
      intro changes stays
      cases out : evicted changes with
      | none => rfl
      | some oldest =>
        rw [out] at stays
        exact find_erase_of_ne _ fun same => stays (congrArg some same.symm)
    have told := told_noted log at_ change undone
    unfold HostChangeLog.told at told ⊢
    rw [stored _ kept]
    by_cases same : at_ = path
    · subst same
      rw [if_pos rfl, find_set_self, ← told]
      rfl
    · rw [if_neg same, find_set_of_ne _ _ (Ne.symm same)]

theorem told_run (path : Path) (events : List (HostEvent Hash)) : ∀ log : HostChangeLog Hash,
    log.Keeps path events →
    (events.foldl record log).told path = (changesOf path events).foldl said (log.told path) := by
  induction events with
  | nil => exact fun _ _ => rfl
  | cons event rest ih =>
    rintro log ⟨kept, more⟩
    rw [foldl_cons, ih _ more, told_record log event path kept]
    unfold changesOf
    rw [filterMap_cons]
    by_cases same : event.1 = path
    · rw [if_pos same, if_pos same]
      rfl
    · rw [if_neg same, if_neg same]

theorem keeps_seen {path : Path} {seen events : List (HostEvent Hash)} (before : seen <+: events) :
    ∀ {log : HostChangeLog Hash}, log.Keeps path events → log.Keeps path seen := by
  induction seen generalizing events with
  | nil => exact fun _ => trivial
  | cons event seen ih =>
    obtain ⟨rest, rfl⟩ := before
    rintro log ⟨kept, more⟩
    exact ⟨kept, ih (prefix_append _ _) more⟩

/-- The records of a path that is not pushed out are its net change throughout exactly where
each change of it follows. -/
theorem log_nets_iff (log : HostChangeLog Hash) (path : Path)
    (fresh : log.changes.find path = none) (events : List (HostEvent Hash))
    (kept : log.Keeps path events) :
    (∀ seen, seen <+: events → (seen.foldl record log).told path = net (changesOf path seen)) ↔
      ∀ seen change, seen ++ [(path, change)] <+: events → Follows (changesOf path seen) change := by
  have start : log.told path = none := by rw [told, fresh]; rfl
  have ran : ∀ seen, seen <+: events →
      (seen.foldl record log).told path = (changesOf path seen).foldl said none := fun seen before => by
    rw [told_run path seen log (keeps_seen before kept), start]
  have snoc : ∀ (seen : List (HostEvent Hash)) (change : FileChange Hash),
      changesOf path (seen ++ [(path, change)]) = changesOf path seen ++ [change] :=
    fun seen change => by simp [changesOf]
  constructor
  · intro right seen change before
    have earlier : seen <+: events := (prefix_append _ _).trans before
    have now := right _ before
    rw [ran _ before, snoc] at now
    exact (said_net_iff ((ran _ earlier).symm.trans (right _ earlier)) change).mp now
  · intro follows seen
    induction seen using List.reverseRecOn with
    | nil => exact fun _ => start
    | append_singleton seen event ih =>
      intro before
      have earlier : seen <+: events := (prefix_append _ _).trans before
      have right := (ran _ earlier).symm.trans (ih earlier)
      obtain ⟨at_, change⟩ := event
      rw [ran _ before]
      by_cases same : at_ = path
      · subst same
        rw [snoc]
        exact (said_net_iff right change).mpr (follows seen change before)
      · have others : changesOf path (seen ++ [(at_, change)]) = changesOf path seen := by
          simp [changesOf, same]
        rw [others, right]

/-- A file the host changes, replaces with a link and writes again is recorded as added. -/
theorem relinked_file_added :
    let path : Path := [0x66]
    let file (hash : Nat) : Entry Nat := { remote := { hash := hash }, hasRemote := true }
    let link : Entry Nat := { remote := { hash := 0, kind := .symlink }, hasRemote := true }
    let events : List (HostEvent Nat) :=
      [(path, ⟨some 1, some 2, by decide⟩), (path, ⟨none, some 3, by decide⟩)]
    recordedRow (some (file 1)) { path := path, hash := 2 } = some (.modified, some 1) ∧
      recordedRow (some (file 2)) { path := path, kind := .symlink, hash := 0 } = none ∧
      recordedRow (some link) { path := path, hash := 3 } = some (.added, none) ∧
      (events.foldl record {}).told path = some (.added, some 1) ∧
      net (changesOf path events) = some (.modified, some 1) :=
  ⟨by decide, by decide, by decide, by decide, by decide⟩

theorem log_nets_iff_twice :
    (∀ seen, seen <+: [(([0x66] : Path), (⟨some 1, none, by decide⟩ : FileChange Nat)),
        (([0x66] : Path), (⟨none, some 3, by decide⟩ : FileChange Nat))] →
      (seen.foldl record {}).told [0x66] = net (changesOf [0x66] seen)) ↔
    ∀ seen change, seen ++ [(([0x66] : Path), change)] <+:
        [(([0x66] : Path), (⟨some 1, none, by decide⟩ : FileChange Nat)),
          (([0x66] : Path), (⟨none, some 3, by decide⟩ : FileChange Nat))] →
      Follows (changesOf [0x66] seen) change :=
  log_nets_iff {} [0x66] rfl _ ⟨by decide, by decide, trivial⟩

end Microide.Remote
