/-
The mirror's three files.

`meta/state` holds every entry, written lazily; `meta/journal` which paths have a push pending
and which tree operations wait, written before every attempt; `meta/pulled` which bytes were
pulled since the state was written, appended to after every batch. `openMirror` reads all
three: the journal's pending set overrides the state's, and a hint moves a base where the file
still holds its bytes or a push is pending.

A record file is read as its body: what `PersistedRecordWriter` puts around one is left out.
-/

import Microide.Lib.Decoder
import Microide.Remote.RemoteManifest

namespace Microide.Remote

open Lib Lib.Decoder

def kStateVersion : Nat := 4
def kJournalVersion : Nat := 1
/-- A count, then that many records, rewritten whole. -/
def kPulledHintVersionRewritten : Nat := 1
/-- Records until the end, appended. -/
def kPulledHintVersion : Nat := 2

/-! Bits of an entry's flags. -/

def kHasRemote : Nat := 0
def kHasBase : Nat := 1
def kLocalKnown : Nat := 2
def kPushPending : Nat := 3
def kConflict : Nat := 4
def kLocalOnly : Nat := 5
def kRenamedFrom : Nat := 6

/-- The sync engine's memory of a mirror. -/
structure MirrorStore where
  entries : Entries ContentHash := .empty
  pendingTreeOps : List PendingTreeOp := []
  /-- Pulls the saved state does not record yet. -/
  pulledUnsaved : OrderedTable Path ContentHash := .empty
  /-- Those of them `meta/pulled` does not hold yet. -/
  pulledUnwritten : List (Path × ContentHash) := []
  manifestId : Nat := 0

/-- `entries[path]` of an empty table. -/
def blankEntry : Entry ContentHash := { remote := { hash := .zero } }

def MirrorStore.entry (store : MirrorStore) (path : Path) : Entry ContentHash :=
  (store.entries.find path).getD blankEntry

/-! ### Tree operations -/

def putTreeOp : PendingTreeOp → List UInt8
  | .createDirectory path => [1] ++ (putBytes path ++ putBytes [])
  | .rename path newPath => [2] ++ (putBytes path ++ putBytes newPath)
  | .delete path => [3] ++ (putBytes path ++ putBytes [])

def encodeTreeOps (ops : List PendingTreeOp) : List UInt8 :=
  putVarint ops.length ++ ops.flatMap putTreeOp

def getTreeOp : Decoder PendingTreeOp := do
  let kind ← le 1
  let path ← bytes kMaxManifestPathBytes
  let newPath ← bytes kMaxManifestPathBytes
  check (1 ≤ kind ∧ kind ≤ 3 ∧ isSafeRelativePath path ∧ (kind = 2 → isSafeRelativePath newPath))
  pure (if kind = 1 then .createDirectory path
    else if kind = 2 then .rename path newPath
    else .delete path)

def decodeTreeOps (limit : Nat) : Decoder (List PendingTreeOp) := do
  let count ← varint
  check (count ≤ limit + 1)
  let ops ← many getTreeOp count
  room 0
  pure ops

/-! ### The state -/

/-- `ContentHash::FromRaw`. -/
def ContentHash.ofRaw (raw : List UInt8) : Option ContentHash :=
  if size : raw.length = kContentHashBytes then some ⟨raw, size⟩ else none

def getHash : Decoder (Option ContentHash) := do
  let bytes ← raw kContentHashBytes
  pure (ContentHash.ofRaw bytes)

def putRemote (remote : RemoteContent ContentHash) : List UInt8 :=
  [UInt8.ofNat remote.kind.code] ++ (putVarint remote.size ++ (putVarint remote.mode ++
    (putVarint (zigZag remote.mtimeNs) ++
    match remote.kind with
    | .file => remote.hash.raw
    | .symlink => putBytes remote.linkTarget
    | .submodule => [])))

/-- A kind it does not know is a file's. -/
def getRemote : Decoder (RemoteContent ContentHash) := do
  let code ← le 1
  let size ← varint
  let mode ← varint
  let mtime ← varint
  let remote : RemoteContent ContentHash :=
    { hash := .zero, size, mtimeNs := unZigZag mtime, mode := mode % 2 ^ 12,
      kind := (ManifestEntryKind.ofCode code).getD .file }
  match remote.kind with
  | .file => do
      let hash ← getHash
      pure { remote with hash := hash.getD .zero }
  | .symlink => do
      let linkTarget ← bytes kMaxManifestPathBytes
      pure { remote with linkTarget }
  | .submodule => pure remote

def putLocal (stat : FileStat) : List UInt8 :=
  putVarint stat.size ++ (putVarint (zigZag stat.mtimeNs) ++ putVarint (zigZag stat.ctimeNs))

/-- No ctime was recorded before the third version. -/
def getLocal (version : Nat) : Decoder FileStat := do
  let size ← varint
  let mtime ← varint
  let ctime ← optional (decide (3 ≤ version)) varint
  pure { size, mtimeNs := unZigZag mtime, ctimeNs := (ctime.map unZigZag).getD 0 }

/-- What of an entry is written, where it has it. -/
def Entry.remote? (entry : Entry ContentHash) : Option (RemoteContent ContentHash) :=
  if entry.hasRemote then some entry.remote else none

def Entry.localStat? (entry : Entry ContentHash) : Option FileStat :=
  if entry.localKnown then some entry.localStat else none

def Entry.renamedFrom? (entry : Entry ContentHash) : Option Path :=
  if entry.renamedFrom.isEmpty then none else some entry.renamedFrom

def Entry.flags (entry : Entry ContentHash) : List Bool :=
  [entry.remote?.isSome, entry.base.isSome, entry.localStat?.isSome, entry.pushPending,
    entry.conflict, entry.localOnly, entry.renamedFrom?.isSome]

def putEntry (row : Path × Entry ContentHash) : List UInt8 :=
  putBytes row.1 ++ ([UInt8.ofNat (packBits row.2.flags)] ++ (row.2.remote?.elim [] putRemote ++
    (row.2.base.elim [] ContentHash.raw ++ (row.2.localStat?.elim [] putLocal ++
    row.2.renamedFrom?.elim [] putBytes))))

def getSafePath : Decoder Path := do
  let path ← bytes kMaxManifestPathBytes
  check (isSafeRelativePath path)
  pure path

def getEntry (version : Nat) : Decoder (Path × Entry ContentHash) := do
  let path ← bytes kMaxManifestPathBytes
  let flags ← le 1
  let remote ← optional (flags.testBit kHasRemote) getRemote
  let base ← optional (flags.testBit kHasBase) getHash
  let stat ← optional (flags.testBit kLocalKnown) (getLocal version)
  let renamedFrom ← optional (flags.testBit kRenamedFrom) getSafePath
  check (isSafeRelativePath path)
  pure (path,
    { remote := remote.getD { hash := .zero }
      base := base.join
      hasRemote := remote.isSome
      localKnown := stat.isSome && decide (3 ≤ version)
      pushPending := flags.testBit kPushPending
      conflict := flags.testBit kConflict
      localOnly := flags.testBit kLocalOnly
      localStat := stat.getD {}
      renamedFrom := renamedFrom.getD [] })

def encodeState (store : MirrorStore) : List UInt8 :=
  putVarint kStateVersion ++ (putVarint store.manifestId ++ (putVarint store.entries.rows.length ++
    (store.entries.rows.flatMap putEntry ++ encodeTreeOps store.pendingTreeOps)))

/-- The version, the manifest and how many entries follow. -/
def getStateHeader (limit : Nat) : Decoder (Nat × Nat × Nat) := do
  let version ← varint
  let manifestId ← varint
  let count ← varint
  room 0
  check (1 ≤ version ∧ version ≤ kStateVersion ∧ count ≤ limit)
  pure (version, manifestId, count)

/-- The first row of a path stays: `emplace`. -/
def entriesOfRows (rows : List (Path × Entry ContentHash)) : Entries ContentHash :=
  rows.foldl (fun entries row => entries.insert row.1 row.2) .empty

def getStateBody (limit version count : Nat) :
    Decoder (Entries ContentHash × List PendingTreeOp) := do
  let rows ← many (getEntry version) count
  let ops ← optional (decide (2 ≤ version)) (decodeTreeOps limit)
  pure (entriesOfRows rows, ops.getD [])

/-! ### The journal -/

def MirrorStore.pendingPaths (store : MirrorStore) : List Path :=
  (store.entries.rows.filter (·.2.pushPending)).map Prod.fst

def encodeJournal (store : MirrorStore) : List UInt8 :=
  putVarint kJournalVersion ++ (putVarint store.pendingPaths.length ++
    (store.pendingPaths.flatMap putBytes ++ encodeTreeOps store.pendingTreeOps))

def getJournal (limit : Nat) : Decoder (List Path × List PendingTreeOp) := do
  let version ← varint
  check (version = kJournalVersion)
  let count ← varint
  let pending ← many getSafePath count
  let ops ← decodeTreeOps limit
  pure (pending, ops)

def markPending (entries : Entries ContentHash) (path : Path) : Entries ContentHash :=
  entries.set path { (entries.find path).getD blankEntry with pushPending := true }

/-- Where both exist, the journal's pending set is the newer truth. -/
def applyJournal (journal : List Path × List PendingTreeOp) (store : MirrorStore) : MirrorStore :=
  let cleared := store.entries.mapValues ({ · with pushPending := false })
  { store with entries := journal.1.foldl markPending cleared, pendingTreeOps := journal.2 }

/-! ### The pulled hint -/

def putPulled (record : Path × ContentHash) : List UInt8 := putBytes record.1 ++ record.2.raw

/-- The complete records, at most `count`, and where the reader stopped. -/
def pulledRecords : Nat → ByteReader → List (Path × ContentHash) × ByteReader
  | 0, reader => ([], reader)
  | count + 1, reader =>
      if reader.atEnd then ([], reader)
      else
        let (path, reader) := reader.bytes kMaxManifestPathBytes
        let (raw, reader) := reader.raw kContentHashBytes
        if reader.failed || !isSafeRelativePath path then ([], reader)
        else
          match ContentHash.ofRaw raw with
          | none => ([], reader)
          | some hash =>
              let (rest, reader) := pulledRecords count reader
              ((path, hash) :: rest, reader)

structure PulledHint where
  pulled : List (Path × ContentHash) := []
  counted : Bool := false
  /-- Read to its end, with no torn or foreign bytes. -/
  whole : Bool := false

/-- Uncounted records run to the end: there are no more of them than bytes. -/
def readPulledHint (hint : List UInt8) : PulledHint :=
  let (version, reader) := ByteReader.varint ⟨hint, false⟩
  let counted := version == kPulledHintVersionRewritten
  let (count, reader) := if counted then reader.varint else (hint.length, reader)
  if !reader.failed && (counted || version == kPulledHintVersion) then
    let (pulled, reader) := pulledRecords (min count (hint.length + 1)) reader
    { pulled, counted, whole := reader.atEnd && !reader.failed }
  else { counted }

/-- The base moves to the pulled bytes where the file still holds them, or where a push is
pending. -/
def adoptPulled (fileHash : Path → Option ContentHash) (store : MirrorStore)
    (record : Path × ContentHash) : MirrorStore :=
  let entry := store.entry record.1
  let adopted := if entry.pushPending || fileHash record.1 = some record.2
    then { entry with base := some record.2, localKnown := false } else entry
  { store with
    entries := store.entries.set record.1 adopted
    pulledUnsaved := store.pulledUnsaved.set record.1 record.2 }

def notePulled (path : Path) (hash : ContentHash) (store : MirrorStore) : MirrorStore :=
  { store with
    pulledUnsaved := store.pulledUnsaved.set path hash
    pulledUnwritten := store.pulledUnwritten ++ [(path, hash)] }

/-! ### On disk -/

inductive RecordFile where
  | absent
  | unreadable
  | holds (body : List UInt8)

/-- `meta/`, without the staging directory. -/
structure MirrorMeta where
  state : RecordFile := .absent
  journal : RecordFile := .absent
  pulled : Option (List UInt8) := none

inductive OpenError where
  | stateUnreadable
  | stateUnknownFormat
  | stateCorrupt
  | journalCorrupt

def readState (body : List UInt8) : Except OpenError MirrorStore :=
  match getStateHeader body.length ⟨body, false⟩ with
  | none => .error .stateUnknownFormat
  | some ((version, manifestId, count), reader) =>
      match getStateBody body.length version count reader with
      | some ((entries, pendingTreeOps), reader) =>
          if !reader.failed && reader.atEnd then .ok { entries, pendingTreeOps, manifestId }
          else .error .stateCorrupt
      | none => .error .stateCorrupt

def readJournal (file : RecordFile) (store : MirrorStore) : Except OpenError MirrorStore :=
  match file with
  | .holds body =>
      match (getJournal body.length).run body with
      | some journal => .ok (applyJournal journal store)
      | none => .error .journalCorrupt
  | _ => .ok store

/-- A hint that cannot be appended to is removed, and what it said is written again. -/
def readPulled (fileHash : Path → Option ContentHash) (disk : MirrorMeta) (store : MirrorStore) :
    MirrorStore × MirrorMeta :=
  match disk.pulled with
  | none => (store, disk)
  | some hint =>
      let read := readPulledHint hint
      let store := read.pulled.foldl (adoptPulled fileHash) store
      if read.counted || !read.whole then
        ({ store with pulledUnwritten := store.pulledUnwritten ++ store.pulledUnsaved.rows },
          { disk with pulled := none })
      else (store, disk)

/-- `MirrorStore::Open`; a missing state file is a new mirror. -/
def openMirror (fileHash : Path → Option ContentHash) (disk : MirrorMeta) :
    Except OpenError (MirrorStore × MirrorMeta) :=
  match disk.state with
  | .absent => .ok ({}, disk)
  | .unreadable => .error .stateUnreadable
  | .holds body => do
      let store ← readState body
      let store ← readJournal disk.journal store
      return readPulled fileHash disk store

/-! ### Writing -/

/-- One write of a file: a record is written whole, the hint is appended to. -/
inductive Write where
  | state (store : MirrorStore)
  | journal (store : MirrorStore)
  | removePulled
  | appendPulled (records : List (Path × ContentHash))

/-- What an append puts at the end of what the hint file holds. -/
def pulledAppend (held : List UInt8) (records : List (Path × ContentHash)) : List UInt8 :=
  (if held.isEmpty then putVarint kPulledHintVersion else []) ++ records.flatMap putPulled

def Write.apply (disk : MirrorMeta) : Write → MirrorMeta
  | .state store => { disk with state := .holds (encodeState store) }
  | .journal store => { disk with journal := .holds (encodeJournal store) }
  | .removePulled => { disk with pulled := none }
  | .appendPulled records =>
      let held := disk.pulled.getD []
      { disk with pulled := some (held ++ pulledAppend held records) }

/-- The files where a crash cuts the write short: a record is not written, of an append at
most the first `bytes` bytes are. -/
def Write.torn (bytes : Nat) (disk : MirrorMeta) : Write → MirrorMeta
  | .appendPulled records =>
      let held := disk.pulled.getD []
      { disk with pulled := some (held ++ (pulledAppend held records).take bytes) }
  | _ => disk

inductive StoreOp where
  | writePulledHint
  | saveJournal
  | save
  deriving DecidableEq

/-- Nothing noted since the last append is nothing to write. -/
def hintWrites (store : MirrorStore) : List Write :=
  if store.pulledUnwritten.isEmpty then [] else [.appendPulled store.pulledUnwritten]

/-- What an operation writes, in its order. -/
def writes (store : MirrorStore) : StoreOp → List Write
  | .writePulledHint => hintWrites store
  | .saveJournal =>
      .journal store :: if store.pulledUnsaved.rows.isEmpty then [] else hintWrites store
  | .save => [.state store, .removePulled, .journal store]

/-- The memory after an operation. -/
def afterOp (store : MirrorStore) : StoreOp → MirrorStore
  | .writePulledHint => { store with pulledUnwritten := [] }
  | .saveJournal =>
      if store.pulledUnsaved.rows.isEmpty then store else { store with pulledUnwritten := [] }
  | .save => { store with pulledUnsaved := .empty, pulledUnwritten := [] }

end Microide.Remote
