/-
A mirror's files read back.

A record is read back as it was written, up to what a record does not keep: a row's hash or
link target by its kind, a local stat that was not vouched for, what a push was answered. The
hint is read back to its last complete record, wherever an append to it was cut.

**Main results.** `readState_encodeState`, `getJournal_encodeJournal`, `readPulledHint_append`:
each file read back; `Written.openMirror_some`: Open of files as they were last written.
-/

import Microide.Lib.Runs
import Microide.Remote.MirrorRecords

namespace Microide.Remote

open List Lib OrderedTable Decoder ContentHash
open Lib.Decoder

/-! ### What is kept of a mirror -/

/-- A row keeps the hash a file has, or the target a link has. -/
def RemoteContent.kept (remote : RemoteContent ContentHash) : RemoteContent ContentHash :=
  match remote.kind with
  | .file => { remote with linkTarget := [] }
  | .symlink => { remote with hash := .zero }
  | .submodule => { remote with hash := .zero, linkTarget := [] }

/-- The row where the host lists one, the local stat where it was vouched for; not what its
pushes were answered. -/
def Entry.kept (entry : Entry ContentHash) : Entry ContentHash where
  remote := (entry.remote?.map RemoteContent.kept).getD { hash := .zero }
  base := entry.base
  hasRemote := entry.hasRemote
  localKnown := entry.localKnown
  pushPending := entry.pushPending
  conflict := entry.conflict
  localOnly := entry.localOnly
  localStat := entry.localStat?.getD {}
  renamedFrom := entry.renamedFrom

/-- 64-bit times. -/
def TimeFits (time : Int) : Prop := -2 ^ 63 ≤ time ∧ time < 2 ^ 63

structure RemoteContent.Storable (remote : RemoteContent ContentHash) : Prop where
  size : remote.size < 2 ^ 64
  mode : remote.mode ≤ kMaxMode
  time : TimeFits remote.mtimeNs
  link : remote.kind = .symlink → remote.linkTarget.length ≤ kMaxManifestPathBytes

structure FileStat.Storable (stat : FileStat) : Prop where
  size : stat.size < 2 ^ 64
  mtime : TimeFits stat.mtimeNs
  ctime : TimeFits stat.ctimeNs

structure Entry.Storable (entry : Entry ContentHash) : Prop where
  remote : ∀ remote ∈ entry.remote?, remote.Storable
  stat : ∀ stat ∈ entry.localStat?, stat.Storable
  renamedFrom : ∀ path ∈ entry.renamedFrom?, isSafeRelativePath path

def PendingTreeOp.Safe : PendingTreeOp → Prop
  | .createDirectory path => isSafeRelativePath path
  | .rename path newPath => isSafeRelativePath path ∧ isSafeRelativePath newPath
  | .delete path => isSafeRelativePath path

/-- Safe paths, and numbers of the widths they have. -/
structure MirrorStore.Storable (store : MirrorStore) : Prop where
  entries : ∀ row ∈ store.entries.rows, isSafeRelativePath row.1 ∧ row.2.Storable
  ops : ∀ op ∈ store.pendingTreeOps, op.Safe
  manifestId : store.manifestId < 2 ^ 64
  pulledUnsaved : ∀ row ∈ store.pulledUnsaved.rows, isSafeRelativePath row.1
  pulledUnwritten : ∀ record ∈ store.pulledUnwritten, isSafeRelativePath record.1

/-- There is no more of either in memory. -/
def MirrorStore.Fits (store : MirrorStore) : Prop :=
  store.entries.rows.length < 2 ^ 64 ∧ store.pendingTreeOps.length < 2 ^ 64

instance (store : MirrorStore) : Decidable store.Fits := by
  unfold MirrorStore.Fits
  infer_instance

/-! ### Records read back -/

variable {path : Path}


theorem reads_path (fits : path.length ≤ kMaxManifestPathBytes) :
    Reads (bytes kMaxManifestPathBytes) (putBytes path) path := .bytes fits (by decide)

theorem reads_getSafePath (safe : isSafeRelativePath path) :
    Reads getSafePath (putBytes path) path := by
  rw [← append_nil (putBytes path)]
  exact (reads_path (length_path_le safe)).bind (.check safe (.pure path))

theorem reads_getTreeOp {op : PendingTreeOp} (safe : op.Safe) :
    Reads getTreeOp (putTreeOp op) op := by
  have none : ([] : Path).length ≤ kMaxManifestPathBytes := Nat.zero_le _
  cases op with
  | createDirectory path =>
    have kind : Reads (le 1) [1] 1 := .byte (by decide)
    exact kind.bind ((reads_path (length_path_le safe)).bind ((reads_path none).bind
      (.check ⟨by decide, by decide, safe, by decide⟩ (.pure _))))
  | rename path newPath =>
    have kind : Reads (le 1) [2] 2 := .byte (by decide)
    rw [putTreeOp, ← append_nil (putBytes newPath)]
    exact kind.bind ((reads_path (length_path_le safe.1)).bind ((reads_path (length_path_le safe.2)).bind
      (.check ⟨by decide, by decide, safe.1, fun _ => safe.2⟩ (.pure _))))
  | delete path =>
    have kind : Reads (le 1) [3] 3 := .byte (by decide)
    exact kind.bind ((reads_path (length_path_le safe)).bind ((reads_path none).bind
      (.check ⟨by decide, by decide, safe, by decide⟩ (.pure _))))

/-- Items of a byte at least are no more than bytes. -/
theorem putBytes_ne_nil (bytes : List UInt8) : putBytes bytes ≠ [] := by
  have length := length_pos_iff.mp (length_putVarint_pos bytes.length)
  intro empty
  exact length (append_eq_nil_iff.mp empty).1

theorem putTreeOp_ne_nil (op : PendingTreeOp) : putTreeOp op ≠ [] := by
  cases op <;> exact cons_ne_nil _ _

theorem reads_decodeTreeOps {ops : List PendingTreeOp} (limit : Nat) (safe : ∀ op ∈ ops, op.Safe)
    (small : ops.length < 2 ^ 64) (room : (encodeTreeOps ops).length ≤ limit) :
    Reads (decodeTreeOps limit) (encodeTreeOps ops) ops := by
  have few := length_le_flatMap (length_pos_iff.mpr <| putTreeOp_ne_nil ·) ops
  have items := Reads.many putTreeOp id ops fun op held => reads_getTreeOp (safe op held)
  rw [map_id] at items
  rw [encodeTreeOps, length_append] at room
  unfold decodeTreeOps encodeTreeOps
  rw [← append_nil (ops.flatMap putTreeOp)]
  exact (Reads.varint small).bind (.check (by omega) (items.bind (.room (Nat.zero_le _) (.pure ops))))

theorem reads_getHash (hash : ContentHash) : Reads getHash hash.raw (some hash) := by
  refine ((Reads.raw hash.size).map ofRaw).answers ?_
  rw [ofRaw, dif_pos hash.size]

theorem reads_time {time : Int} (fits : TimeFits time) :
    Reads varint (putVarint (zigZag time)) (zigZag time) := .varint (zigZag_lt fits.1 fits.2)

theorem reads_getRemote {remote : RemoteContent ContentHash} (storable : remote.Storable) :
    Reads getRemote (putRemote remote) remote.kept := by
  obtain ⟨hash, size, mtimeNs, mode, kind, linkTarget⟩ := remote
  have known : kind.code < 256 := by cases kind <;> decide
  have modeFits : mode ≤ 4095 := storable.mode
  have bits : mode % 2 ^ 12 = mode := Nat.mod_eq_of_lt (by omega)
  have modeSmall : mode < 2 ^ 64 := by omega
  refine (Reads.byte known).bind ((Reads.varint storable.size).bind ((Reads.varint modeSmall).bind
    ((reads_time storable.time).bind ?_)))
  rw [ManifestEntryKind.ofCode_code, bits, unZigZag_zigZag, Option.getD_some]
  cases kind with
  | file => exact (reads_getHash hash).map _
  | symlink => exact (reads_path (storable.link rfl)).map _
  | submodule => exact .pure _

theorem reads_getLocal {stat : FileStat} (storable : stat.Storable) :
    Reads (getLocal kStateVersion) (putLocal stat) stat := by
  refine (Reads.varint storable.size).bind ((reads_time storable.mtime).bind ?_)
  refine (((reads_time storable.ctime).map some).map _).answers ?_
  rw [unZigZag_zigZag, Option.map_some, unZigZag_zigZag, Option.getD_some]

section

variable (entry : Entry ContentHash)

include entry

theorem packBits_flags : packBits entry.flags < 256 :=
  (packBits_lt entry.flags).trans (by simp [Entry.flags])

@[simp] theorem isSome_remote? : entry.remote?.isSome = entry.hasRemote := by
  unfold Entry.remote?
  cases entry.hasRemote <;> rfl

@[simp] theorem isSome_localStat? : entry.localStat?.isSome = entry.localKnown := by
  unfold Entry.localStat?
  cases entry.localKnown <;> rfl

@[simp] theorem getD_renamedFrom? : entry.renamedFrom?.getD [] = entry.renamedFrom := by
  unfold Entry.renamedFrom?
  cases entry.renamedFrom <;> rfl

end

theorem reads_getEntry {row : Path × Entry ContentHash} (safe : isSafeRelativePath row.1)
    (storable : row.2.Storable) :
    Reads (getEntry kStateVersion) (putEntry row) (row.1, row.2.kept) := by
  obtain ⟨path, entry⟩ := row
  refine (reads_path (length_path_le safe)).bind ((Reads.byte (packBits_flags entry)).bind ?_)
  have remote := Reads.optionalMap putRemote RemoteContent.kept entry.remote? fun remote held =>
    reads_getRemote (storable.remote remote held)
  have base := Reads.optionalMap raw some entry.base fun hash _ => reads_getHash hash
  have stat := Reads.optional putLocal entry.localStat? fun stat held =>
    reads_getLocal (storable.stat stat held)
  have renamedFrom := Reads.optional putBytes entry.renamedFrom? fun path held =>
    reads_getSafePath (storable.renamedFrom path held)
  have flag (place : Nat) : (packBits entry.flags).testBit place = entry.flags.getD place false :=
    testBit_packBits _ _
  simp only [flag]
  rw [← append_nil (entry.renamedFrom?.elim _ _)]
  refine remote.bind (base.bind (stat.bind (renamedFrom.bind (.check safe ?_))))
  refine (Reads.pure _).answers (Prod.ext rfl ?_)
  have joined : (entry.base.map some).join = entry.base := by cases entry.base <;> rfl
  simp [Entry.kept, Entry.flags, joined, kStateVersion, kPushPending, kConflict, kLocalOnly]

theorem putEntry_ne_nil (row : Path × Entry ContentHash) : putEntry row ≠ [] := by
  intro empty
  exact putBytes_ne_nil row.1 (append_eq_nil_iff.mp empty).1

/-! ### The state read back -/

def keptRow (row : Path × Entry ContentHash) : Path × Entry ContentHash := (row.1, row.2.kept)

/-- What Open makes of the state before the journal. -/
def keptStore (store : MirrorStore) : MirrorStore where
  entries := entriesOfRows (store.entries.rows.map keptRow)
  pendingTreeOps := store.pendingTreeOps
  manifestId := store.manifestId

variable {store : MirrorStore}

theorem readState_encodeState (storable : store.Storable) (fits : store.Fits) :
    readState (encodeState store) = .ok (keptStore store) := by
  have rows := Reads.many putEntry keptRow store.entries.rows fun row held =>
    reads_getEntry (storable.entries row held).1 (storable.entries row held).2
  have few := length_le_flatMap (length_pos_iff.mpr <| putEntry_ne_nil ·) store.entries.rows
  have header : Reads (getStateHeader (encodeState store).length)
      (putVarint kStateVersion ++ (putVarint store.manifestId ++
        putVarint store.entries.rows.length))
      (kStateVersion, store.manifestId, store.entries.rows.length) := by
    rw [← append_nil (putVarint store.entries.rows.length)]
    refine (Reads.varint (by decide)).bind ((Reads.varint storable.manifestId).bind
      ((Reads.varint fits.1).bind (.room (Nat.zero_le _) (.check ⟨by decide, le_rfl, ?_⟩ (.pure _)))))
    simp only [encodeState, length_append]
    omega
  have ops : Reads (decodeTreeOps (encodeState store).length) (encodeTreeOps store.pendingTreeOps)
      store.pendingTreeOps := by
    refine reads_decodeTreeOps _ storable.ops fits.2 ?_
    simp only [encodeState, length_append]
    omega
  have body : Reads (getStateBody (encodeState store).length kStateVersion
      store.entries.rows.length) (store.entries.rows.flatMap putEntry ++
        encodeTreeOps store.pendingTreeOps)
      ((keptStore store).entries, store.pendingTreeOps) :=
    rows.bind ((ops.map some).map _)
  have split : encodeState store = (putVarint kStateVersion ++ (putVarint store.manifestId ++
      putVarint store.entries.rows.length)) ++ (store.entries.rows.flatMap putEntry ++
        encodeTreeOps store.pendingTreeOps) := by
    simp [encodeState]
  have first := header (store.entries.rows.flatMap putEntry ++ encodeTreeOps store.pendingTreeOps)
  have second := body []
  rw [← split] at first
  rw [append_nil] at second
  unfold readState
  rw [first]
  dsimp only
  rw [second]
  rfl

theorem find_keptStore (store : MirrorStore) (path : Path) :
    (keptStore store).entries.find path = (store.entries.find path).map Entry.kept := by
  rw [keptStore, entriesOfRows, find_foldl_insert, find_empty,
    Option.none_or, find?_map, Option.map_map, OrderedTable.find, Option.map_map]
  rfl

/-! ### The journal read back -/

theorem mem_pendingPaths :
    path ∈ store.pendingPaths ↔ ∃ entry, store.entries.find path = some entry ∧ entry.pushPending := by
  simp [MirrorStore.pendingPaths, find_eq_some]

theorem getJournal_encodeJournal (storable : store.Storable) (fits : store.Fits) :
    (getJournal (encodeJournal store).length).run (encodeJournal store) =
      some (store.pendingPaths, store.pendingTreeOps) := by
  have safe : ∀ path ∈ store.pendingPaths, isSafeRelativePath path := by
    intro path pending
    obtain ⟨row, listed, rfl⟩ := mem_map.mp pending
    exact (storable.entries row (mem_filter.mp listed).1).1
  have few : store.pendingPaths.length < 2 ^ 64 := by
    rw [MirrorStore.pendingPaths, length_map]
    exact (length_filter_le _ _).trans_lt fits.1
  have paths := Reads.many putBytes id store.pendingPaths fun path held =>
    reads_getSafePath (safe path held)
  rw [map_id] at paths
  have ops : Reads (decodeTreeOps (encodeJournal store).length)
      (encodeTreeOps store.pendingTreeOps) store.pendingTreeOps := by
    refine reads_decodeTreeOps _ storable.ops fits.2 ?_
    simp only [encodeJournal, length_append]
    omega
  have version : Reads varint (putVarint kJournalVersion) kJournalVersion :=
    .varint (by decide)
  exact run_of_reads (version.bind (.check rfl ((Reads.varint few).bind
    (paths.bind (ops.map (Prod.mk store.pendingPaths))))))

theorem find_foldl_markPending (pending : List Path) : ∀ (entries : Entries ContentHash) (path : Path),
    (pending.foldl markPending entries).find path =
      if path ∈ pending then some { (entries.find path).getD blankEntry with pushPending := true }
      else entries.find path := by
  induction pending with
  | nil => simp
  | cons first pending ih =>
    intro entries path
    rw [foldl_cons, ih, markPending, find_set]
    by_cases same : path = first
    · subst same
      simp
    · simp [same]

theorem find_applyJournal (journal : List Path × List PendingTreeOp) (store : MirrorStore)
    (path : Path) :
    (applyJournal journal store).entries.find path =
      if path ∈ journal.1 then some { store.entry path with pushPending := true }
      else (store.entries.find path).map ({ · with pushPending := false }) := by
  rw [applyJournal, find_foldl_markPending, find_mapValues]
  split
  · cases found : store.entries.find path <;> simp [MirrorStore.entry, found]
  · rfl

/-! ### The hint's records read back -/

theorem putPulled_ne_nil (record : Path × ContentHash) : putPulled record ≠ [] := by
  intro empty
  exact putBytes_ne_nil record.1 (append_eq_nil_iff.mp empty).1

theorem bytes_path (safe : isSafeRelativePath path) (rest : List UInt8) :
    ByteReader.bytes ⟨putBytes path ++ rest, false⟩ kMaxManifestPathBytes = (path, ⟨rest, false⟩) :=
  ByteReader.bytes_putBytes (length_path_le safe) ((length_path_le safe).trans_lt (by decide)) rest

variable {record : Path × ContentHash}

theorem pulledRecords_cons (safe : isSafeRelativePath record.1) (count : Nat) (rest : List UInt8) :
    pulledRecords (count + 1) ⟨putPulled record ++ rest, false⟩ =
      (record :: (pulledRecords count ⟨rest, false⟩).1, (pulledRecords count ⟨rest, false⟩).2) := by
  obtain ⟨path, hash⟩ := record
  have more : (ByteReader.mk (putPulled (path, hash) ++ rest) false).atEnd = false := by
    simp [ByteReader.atEnd, putPulled_ne_nil]
  rw [pulledRecords, more, putPulled, append_assoc]
  simp [bytes_path safe, safe, ofRaw, hash.size]

variable {part : List UInt8}

/-- A record cut short is no record, and its read fails. -/
theorem pulledRecords_torn (safe : isSafeRelativePath record.1) (count : Nat) {missing : List UInt8}
    (whole : part ++ missing = putPulled record) (started : part ≠ []) (torn : missing ≠ []) :
    ∃ reader, pulledRecords (count + 1) ⟨part, false⟩ = ([], reader) ∧ reader.failed = true := by
  have more : (ByteReader.mk part false).atEnd = false := by simp [ByteReader.atEnd, started]
  rw [pulledRecords, more]
  dsimp only
  cases failed : ((ByteReader.bytes ⟨part, false⟩ kMaxManifestPathBytes).2.raw
      kContentHashBytes).2.failed with
  | true => exact ⟨_, by simp, failed⟩
  | false =>
    exfalso
    obtain ⟨path, reader, read⟩ : ∃ path reader,
        ByteReader.bytes ⟨part, false⟩ kMaxManifestPathBytes = (path, reader) := ⟨_, _, rfl⟩
    rw [read] at failed
    obtain ⟨rest, readerFailed⟩ := reader
    cases readerFailed with
    | true => simp [ByteReader.raw] at failed
    | false =>
      -- what was read does not depend on the missing bytes, so none are missing
      have fine : (ByteReader.bytes ⟨part, false⟩ kMaxManifestPathBytes).2.failed = false := by
        rw [read]
      have longer := ByteReader.bytes_append_of_fine missing fine
      rw [whole, putPulled, bytes_path safe, read] at longer
      have left : record.2.raw = rest ++ missing :=
        congrArg ByteReader.rest (congrArg Prod.snd longer)
      have size := congrArg List.length left
      rw [record.2.size, length_append] at size
      have enough : ¬ rest.length < kContentHashBytes := by
        intro short
        simp [ByteReader.raw, short] at failed
      exact torn (length_eq_zero_iff.mp (by omega))

/-- The start of a record, which is not all of it. -/
def TornRecord (part : List UInt8) : Prop :=
  ∃ record : Path × ContentHash, isSafeRelativePath record.1 ∧
    ∃ missing, part ≠ [] ∧ missing ≠ [] ∧ part ++ missing = putPulled record

variable {records : List (Path × ContentHash)}

section

variable (safe : ∀ record ∈ records, isSafeRelativePath record.1)

include safe

/-- Records cut anywhere are the first of them, and perhaps a torn one. -/
theorem cut_records (count : Nat) : ∃ whole part, (records.flatMap putPulled).take count =
        (records.take whole).flatMap putPulled ++ part ∧ (part = [] ∨ TornRecord part) := by
  induction records generalizing count with
  | nil => exact ⟨0, [], by simp, .inl rfl⟩
  | cons record records ih =>
    rw [flatMap_cons]
    by_cases inside : count < (putPulled record).length
    · refine ⟨0, (putPulled record).take count, ?_, ?_⟩
      · rw [take_append_of_le_length (Nat.le_of_lt inside)]
        rfl
      · cases count with
        | zero => exact .inl rfl
        | succ count =>
          refine .inr ⟨record, safe record mem_cons_self,
            (putPulled record).drop (count + 1), ?_, ?_, take_append_drop _ _⟩
          · simp [putPulled_ne_nil]
          · simpa using inside
    · obtain ⟨whole, part, cut, torn⟩ := ih
        (fun other held => safe other (mem_cons_of_mem _ held))
        (count - (putPulled record).length)
      refine ⟨whole + 1, part, ?_, torn⟩
      rw [take_append, take_of_length_le (Nat.not_lt.mp inside), cut, take_succ_cons,
        flatMap_cons, append_assoc]

theorem pulledRecords_whole : ∀ {count : Nat}, records.length ≤ count →
      pulledRecords count ⟨records.flatMap putPulled, false⟩ = (records, ⟨[], false⟩) := by
  induction records with
  | nil =>
    intro count _
    cases count <;> rfl
  | cons record records ih =>
    intro count room
    obtain ⟨count, rfl⟩ := Nat.exists_eq_succ_of_ne_zero (Nat.ne_of_gt (Nat.zero_lt_of_lt room))
    rw [flatMap_cons, pulledRecords_cons (safe record mem_cons_self),
      ih (fun other held => safe other (mem_cons_of_mem _ held)) (Nat.le_of_succ_le_succ room)]

theorem pulledRecords_cut (torn : TornRecord part) : ∀ {count : Nat}, records.length < count →
      ∃ reader, pulledRecords count ⟨records.flatMap putPulled ++ part, false⟩ = (records, reader) ∧
        reader.failed = true := by
  induction records with
  | nil =>
    intro count room
    obtain ⟨record, safe, missing, started, short, whole⟩ := torn
    obtain ⟨count, rfl⟩ := Nat.exists_eq_succ_of_ne_zero (Nat.ne_of_gt room)
    exact pulledRecords_torn safe count whole started short
  | cons record records ih =>
    intro count room
    obtain ⟨count, rfl⟩ := Nat.exists_eq_succ_of_ne_zero (Nat.ne_of_gt (Nat.zero_lt_of_lt room))
    obtain ⟨reader, read, failed⟩ := ih
      (fun other held => safe other (mem_cons_of_mem _ held)) (Nat.lt_of_succ_lt_succ room)
    refine ⟨reader, ?_, failed⟩
    rw [flatMap_cons, append_assoc, pulledRecords_cons (safe record mem_cons_self), read]

/-- A hint file that holds exactly `records`; one made and not written to holds none. -/
def HoldsPulled (held : List UInt8) (records : List (Path × ContentHash)) : Prop :=
  held = [] ∧ records = [] ∨ held = putVarint kPulledHintVersion ++ records.flatMap putPulled

theorem readPulledHint_records (torn : part = [] ∨ TornRecord part) :
    readPulledHint (putVarint kPulledHintVersion ++ (records.flatMap putPulled ++ part)) =
      { pulled := records, counted := false, whole := part.isEmpty } := by
  obtain ⟨hint, spelled⟩ : ∃ hint, hint =
    putVarint kPulledHintVersion ++ (records.flatMap putPulled ++ part) := ⟨_, rfl⟩
  have few := length_le_flatMap (length_pos_iff.mpr <| putPulled_ne_nil ·) records
  have room : records.length < hint.length := by
    have version := length_putVarint_pos kPulledHintVersion
    rw [spelled, length_append, length_append]
    omega
  have version : ByteReader.varint ⟨hint, false⟩ =
      (kPulledHintVersion, ⟨records.flatMap putPulled ++ part, false⟩) := by
    rw [spelled]
    exact ByteReader.varint_putVarint (by decide) _
  have uncounted : (kPulledHintVersion == kPulledHintVersionRewritten) = false := rfl
  have count : min hint.length (hint.length + 1) = hint.length := Nat.min_eq_left (Nat.le_succ _)
  rw [← spelled]
  unfold readPulledHint
  rw [version]
  simp only [uncounted, Bool.false_eq_true, if_false, count]
  rcases torn with rfl | torn
  · rw [append_nil, pulledRecords_whole safe (Nat.le_of_lt room)]
    rfl
  · obtain ⟨reader, read, failed⟩ := pulledRecords_cut safe torn room
    obtain ⟨_, _, _, started, _⟩ := torn
    rw [read]
    simp [failed, started]

end

/-- An append cut anywhere leaves the records before it and the first of its own; where no byte
of a torn one is there, the file holds exactly those. -/
theorem readPulledHint_append {held : List UInt8} {more : List (Path × ContentHash)}
    (holds : HoldsPulled held records) (safe : ∀ record ∈ records, isSafeRelativePath record.1)
    (safeMore : ∀ record ∈ more, isSafeRelativePath record.1) (bytes : Nat) :
    ∃ whole, readPulledHint (held ++ (pulledAppend held more).take bytes) =
        { pulled := records ++ more.take whole, counted := false,
          whole := (readPulledHint (held ++ (pulledAppend held more).take bytes)).whole } ∧
      ((readPulledHint (held ++ (pulledAppend held more).take bytes)).whole = true →
        HoldsPulled (held ++ (pulledAppend held more).take bytes) (records ++ more.take whole)) := by
  -- the file is the version, whole records and perhaps a torn one
  have spelled : ∀ (hint : List UInt8) (whole : Nat) (part : List UInt8),
      hint = putVarint kPulledHintVersion ++
        ((records ++ more.take whole).flatMap putPulled ++ part) →
      (part = [] ∨ TornRecord part) →
      ∃ whole, readPulledHint hint =
          { pulled := records ++ more.take whole, counted := false,
            whole := (readPulledHint hint).whole } ∧
        ((readPulledHint hint).whole = true → HoldsPulled hint (records ++ more.take whole)) := by
    rintro _ whole part rfl torn
    have safeAll : ∀ record ∈ records ++ more.take whole, isSafeRelativePath record.1 := by
      intro record held
      rcases mem_append.mp held with early | late
      · exact safe record early
      · exact safeMore record (mem_of_mem_take late)
    have read := readPulledHint_records safeAll torn
    refine ⟨whole, by rw [read], ?_⟩
    rw [read]
    intro empty
    rw [List.isEmpty_iff.mp empty, append_nil]
    exact .inr rfl
  rcases holds with ⟨rfl, rfl⟩ | rfl
  · have version : putVarint kPulledHintVersion = [2] := by decide
    cases bytes with
    | zero => exact ⟨0, rfl, fun whole => by cases whole⟩
    | succ bytes =>
      obtain ⟨whole, part, cut, torn⟩ := cut_records safeMore bytes
      refine spelled _ whole part ?_ torn
      simp [pulledAppend, version, cut]
  · obtain ⟨whole, part, cut, torn⟩ := cut_records safeMore bytes
    have started : (putVarint kPulledHintVersion ++ records.flatMap putPulled).isEmpty = false := by
      rfl
    refine spelled _ whole part ?_ torn
    rw [pulledAppend, started]
    simp [cut]

/-! ### What the hint moves -/

/-- What the last record of a path says. -/
def lastNoted : List (Path × ContentHash) → Path → Option ContentHash
  | [], _ => none
  | record :: rest, path =>
      (lastNoted rest path).or (if record.1 = path then some record.2 else none)

theorem lastNoted_append (records more : List (Path × ContentHash)) (path : Path) :
    lastNoted (records ++ more) path = (lastNoted more path).or (lastNoted records path) := by
  induction records with
  | nil => simp [lastNoted]
  | cons record records ih => rw [cons_append, lastNoted, ih, lastNoted, Option.or_assoc]

theorem mem_of_lastNoted {hash : ContentHash} (noted : lastNoted records path = some hash) :
    (path, hash) ∈ records := by
  induction records with
  | nil => cases noted
  | cons record records ih =>
    rw [lastNoted, Option.or_eq_some_iff] at noted
    rcases noted with later | ⟨_, own⟩
    · exact mem_cons_of_mem _ (ih later)
    · split at own
      next same =>
        obtain rfl := Option.some.inj own
        rw [← same]
        exact mem_cons_self
      · cases own

variable (fileHash : Path → Option ContentHash)

theorem storable_blankEntry : blankEntry.Storable where
  remote := by rintro _ ⟨⟩
  stat := by rintro _ ⟨⟩
  renamedFrom := by rintro _ ⟨⟩

theorem Entry.Storable.kept {entry : Entry ContentHash} (storable : entry.Storable) :
    entry.kept.Storable := by
  obtain ⟨remote, stat, renamedFrom⟩ := storable
  constructor
  · intro row held
    have kept : entry.kept.remote? = entry.remote?.map RemoteContent.kept := by
      unfold Entry.remote? Entry.kept
      cases known : entry.hasRemote <;> simp [Entry.remote?, known]
    rw [kept] at held
    obtain ⟨row, listed, rfl⟩ := Option.map_eq_some_iff.mp held
    obtain ⟨size, mode, time, link⟩ := remote row listed
    obtain ⟨hash, rowSize, mtimeNs, rowMode, kind, linkTarget⟩ := row
    cases kind with
    | file => exact ⟨size, mode, time, by rintro ⟨⟩⟩
    | symlink => exact ⟨size, mode, time, link⟩
    | submodule => exact ⟨size, mode, time, by rintro ⟨⟩⟩
  · intro known held
    have kept : entry.kept.localStat? = entry.localStat? := by
      unfold Entry.localStat? Entry.kept
      cases vouched : entry.localKnown <;> simp [Entry.localStat?, vouched]
    exact stat known (kept ▸ held)
  · exact renamedFrom

section

variable (storable : store.Storable)

include storable

theorem MirrorStore.Storable.entry (path : Path) : (store.entry path).Storable := by
  unfold MirrorStore.entry
  cases found : store.entries.find path with
  | none => exact storable_blankEntry
  | some entry => exact (storable.entries _ (find_eq_some.mp found)).2

theorem storable_keptStore : (keptStore store).Storable where
  entries := by
    intro row listed
    have found := find_eq_some.mpr listed
    rw [find_keptStore] at found
    obtain ⟨entry, known, kept⟩ := Option.map_eq_some_iff.mp found
    obtain ⟨safe, entryStorable⟩ := storable.entries _ (find_eq_some.mp known)
    rw [← kept]
    exact ⟨safe, entryStorable.kept⟩
  ops := storable.ops
  manifestId := storable.manifestId
  pulledUnsaved := by rintro _ ⟨⟩
  pulledUnwritten := by rintro _ ⟨⟩

/-- What the journal adds to the state. -/
theorem storable_applyJournal {journal : MirrorStore} (journalStorable : journal.Storable) :
    (applyJournal (journal.pendingPaths, journal.pendingTreeOps) store).Storable where
  entries := by
    intro row listed
    have found := find_eq_some.mpr listed
    rw [find_applyJournal] at found
    split at found
    next pending =>
      obtain ⟨entry, known, _⟩ := mem_pendingPaths.mp pending
      rw [← Option.some.inj found]
      exact ⟨(journalStorable.entries _ (find_eq_some.mp known)).1,
        { storable.entry row.1 with }⟩
    · obtain ⟨entry, known, kept⟩ := Option.map_eq_some_iff.mp found
      obtain ⟨safe, entryStorable⟩ := storable.entries _ (find_eq_some.mp known)
      rw [← kept]
      exact ⟨safe, { entryStorable with }⟩
  ops := journalStorable.ops
  manifestId := storable.manifestId
  pulledUnsaved := storable.pulledUnsaved
  pulledUnwritten := storable.pulledUnwritten

theorem storable_adoptPulled (safe : isSafeRelativePath record.1) :
    (adoptPulled fileHash store record).Storable where
  entries := by
    intro row listed
    rcases mem_set.mp listed with rfl | ⟨earlier, _⟩
    · refine ⟨safe, ?_⟩
      split
      · exact { storable.entry record.1 with stat := by rintro _ ⟨⟩ }
      · exact storable.entry record.1
    · exact storable.entries row earlier
  ops := storable.ops
  manifestId := storable.manifestId
  pulledUnsaved := by
    intro row listed
    rcases mem_set.mp listed with rfl | ⟨earlier, _⟩
    · exact safe
    · exact storable.pulledUnsaved row earlier
  pulledUnwritten := storable.pulledUnwritten

end

theorem storable_adopted (safe : ∀ record ∈ records, isSafeRelativePath record.1)
    (storable : store.Storable) : (records.foldl (adoptPulled fileHash) store).Storable := by
  induction records generalizing store with
  | nil => exact storable
  | cons record records ih =>
    exact ih (fun other held => safe other (mem_cons_of_mem _ held))
      (storable_adoptPulled fileHash storable (safe record mem_cons_self))

/-- Whatever a hint file holds, the paths read from it are safe. -/
theorem safe_pulledRecords (count : Nat) : ∀ (reader : ByteReader),
    ∀ record ∈ (pulledRecords count reader).1, isSafeRelativePath record.1 := by
  induction count with
  | zero => intro reader record held; cases held
  | succ count ih =>
    intro reader record held
    unfold pulledRecords at held
    split at held
    · cases held
    · dsimp only at held
      split at held
      · cases held
      next fine =>
        split at held
        · cases held
        · rcases mem_cons.mp held with rfl | later
          · simp only [Bool.or_eq_true, not_or, Bool.not_eq_true, Bool.not_eq_false'] at fine
            exact fine.2
          · exact ih _ record later

theorem safe_readPulledHint (hint : List UInt8) :
    ∀ record ∈ (readPulledHint hint).pulled, isSafeRelativePath record.1 := by
  intro record held
  unfold readPulledHint at held
  dsimp only at held
  split at held
  all_goals split at held
  · exact safe_pulledRecords _ _ record held
  · cases held
  · exact safe_pulledRecords _ _ record held
  · cases held

/-! ### What Open answers -/

/-- The state under the journal. -/
def unhinted (lastState lastJournal : Option MirrorStore) : MirrorStore :=
  match lastState, lastJournal with
  | none, _ => {}
  | some store, none => keptStore store
  | some store, some journal =>
      applyJournal (journal.pendingPaths, journal.pendingTreeOps) (keptStore store)

/-- The files as they were last written. -/
structure Written (disk : MirrorMeta) (lastState lastJournal : Option MirrorStore) : Prop where
  state : disk.state = lastState.elim .absent fun store => .holds (encodeState store)
  journal : disk.journal = lastJournal.elim .absent fun store => .holds (encodeJournal store)
  stateStorable : ∀ store ∈ lastState, store.Storable ∧ store.Fits
  journalStorable : ∀ store ∈ lastJournal, store.Storable ∧ store.Fits

theorem storable_empty : ({} : MirrorStore).Storable where
  entries := by rintro _ ⟨⟩
  ops := by rintro _ ⟨⟩
  manifestId := Nat.two_pow_pos 64
  pulledUnsaved := by rintro _ ⟨⟩
  pulledUnwritten := by rintro _ ⟨⟩

variable {disk : MirrorMeta} {lastJournal : Option MirrorStore}

theorem Written.storable {lastState : Option MirrorStore}
    (written : Written disk lastState lastJournal) : (unhinted lastState lastJournal).Storable := by
  cases lastState with
  | none => exact storable_empty
  | some store =>
    have kept := storable_keptStore (written.stateStorable store rfl).1
    cases lastJournal with
    | none => exact kept
    | some journal => exact storable_applyJournal kept (written.journalStorable journal rfl).1

/-- Where a state was written, Open reads the hint over the state and the journal. -/
theorem Written.openMirror_some (written : Written disk (some store) lastJournal) :
    openMirror fileHash disk =
      .ok (readPulled fileHash disk (unhinted (some store) lastJournal)) := by
  have state : disk.state = .holds (encodeState store) := written.state
  obtain ⟨storable, fits⟩ := written.stateStorable store rfl
  unfold openMirror
  rw [state]
  dsimp only
  rw [readState_encodeState storable fits]
  cases lastJournal with
  | none =>
    have journal : disk.journal = .absent := written.journal
    rw [journal]
    rfl
  | some journal =>
    have held : disk.journal = .holds (encodeJournal journal) := written.journal
    obtain ⟨journalStorable, journalFits⟩ := written.journalStorable journal rfl
    rw [held]
    simp only [readJournal, getJournal_encodeJournal journalStorable journalFits]
    rfl

theorem Written.openMirror_none (written : Written disk none lastJournal) :
    openMirror fileHash disk = .ok ({}, disk) := by
  have state : disk.state = .absent := written.state
  unfold openMirror
  rw [state]

end Microide.Remote
