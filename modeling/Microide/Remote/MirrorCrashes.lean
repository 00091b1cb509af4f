/-
Runs of a mirror and its crashes.

A crash comes between any two writes of the three operations that write, or cuts an append to
the hint short, and the mirror is opened again. The files are kept beside the stores they were
last written from.

**Main results.** `mirror_survives_restart`: Open after Save restores what is kept; after any
crash Open succeeds, the last journal's pending paths are pending where a state was ever
written, and the hint moves a base only to bytes the file holds or on a pending path.
-/

import Microide.Remote.MirrorRestart

namespace Microide.Remote

open List Option Lib MirrorStore

/-! ### Runs -/

/-- The files, and what the state and the journal were last written from. -/
structure MirrorFiles where
  disk : MirrorMeta := {}
  lastState : Option MirrorStore := none
  lastJournal : Option MirrorStore := none

def MirrorFiles.write (files : MirrorFiles) (write : Write) : MirrorFiles where
  disk := write.apply files.disk
  lastState := match write with
    | .state store => some store
    | _ => files.lastState
  lastJournal := match write with
    | .journal store => some store
    | _ => files.lastJournal

/-- The first `whole` writes, and of the next one what `bytes` bytes of it leave. -/
def MirrorFiles.cut (files : MirrorFiles) (todo : List Write) (whole bytes : Nat) : MirrorFiles :=
  let files := (todo.take whole).foldl MirrorFiles.write files
  match todo[whole]? with
  | some write => { files with disk := write.torn bytes files.disk }
  | none => files

/-- What the engine may make of its memory: everything but the pulls it noted. -/
structure MirrorContents where
  entries : Entries ContentHash
  pendingTreeOps : List PendingTreeOp
  manifestId : Nat
  storable : MirrorStore.Storable { entries, pendingTreeOps, manifestId }

/-- The store in memory and the files under it. -/
structure MirrorRun where
  store : MirrorStore := {}
  files : MirrorFiles := {}

inductive MirrorAction where
  | change (contents : MirrorContents)
  | note (path : Path) (hash : ContentHash)
  | run (op : StoreOp)
  /-- `op` stops after `whole` writes and `bytes` bytes of the next; the tree then holds
  `fileHash` and the mirror is opened. -/
  | crash (op : StoreOp) (whole bytes : Nat) (fileHash : Path → Option ContentHash)

namespace MirrorRun

def step (s : MirrorRun) : MirrorAction → Option MirrorRun
  | .change contents =>
      some { s with store := { s.store with
        entries := contents.entries
        pendingTreeOps := contents.pendingTreeOps
        manifestId := contents.manifestId } }
  | .note path hash =>
      if isSafeRelativePath path then some { s with store := notePulled path hash s.store }
      else none
  | .run op =>
      if s.store.Fits then
        some ⟨afterOp s.store op, (writes s.store op).foldl MirrorFiles.write s.files⟩
      else none
  | .crash op whole bytes fileHash =>
      if s.store.Fits then
        let files := s.files.cut (writes s.store op) whole bytes
        match openMirror fileHash files.disk with
        | .ok (store, disk) => some ⟨store, { files with disk }⟩
        | .error _ => none
      else none

/-! ### What every run keeps -/

structure Sound (s : MirrorRun) : Prop where
  store : s.store.Storable
  written : Written s.files.disk s.files.lastState s.files.lastJournal

end MirrorRun

/-- A record is written from a store that can be. -/
def Write.Sound : Write → Prop
  | .state store | .journal store => store.Storable ∧ store.Fits
  | _ => True

variable {store : MirrorStore}

theorem sound_writes (storable : store.Storable) (fits : store.Fits) (op : StoreOp) :
    ∀ write ∈ writes store op, write.Sound := by
  have hint : ∀ write ∈ hintWrites store, write.Sound := by
    intro write held
    unfold hintWrites at held
    split at held
    · cases held
    · rw [mem_singleton.mp held]
      trivial
  intro write held
  cases op with
  | writePulledHint => exact hint write held
  | saveJournal =>
    rcases mem_cons.mp held with rfl | held
    · exact ⟨storable, fits⟩
    · split at held
      · cases held
      · exact hint write held
  | save =>
    simp only [writes, mem_cons, not_mem_nil, or_false] at held
    rcases held with rfl | rfl | rfl
    · exact ⟨storable, fits⟩
    · trivial
    · exact ⟨storable, fits⟩

theorem Written.write {files : MirrorFiles}
    (written : Written files.disk files.lastState files.lastJournal) {write : Write}
    (sound : write.Sound) : Written (files.write write).disk (files.write write).lastState
      (files.write write).lastJournal := by
  obtain ⟨state, journal, stateStorable, journalStorable⟩ := written
  cases write with
  | state store => exact ⟨rfl, journal, by rintro _ ⟨⟩; exact sound, journalStorable⟩
  | journal store => exact ⟨state, rfl, stateStorable, by rintro _ ⟨⟩; exact sound⟩
  | removePulled => exact ⟨state, journal, stateStorable, journalStorable⟩
  | appendPulled records => exact ⟨state, journal, stateStorable, journalStorable⟩

theorem Written.foldl {todo : List Write} (sound : ∀ write ∈ todo, write.Sound)
    {files : MirrorFiles} (written : Written files.disk files.lastState files.lastJournal) :
    Written (todo.foldl MirrorFiles.write files).disk
      (todo.foldl MirrorFiles.write files).lastState
      (todo.foldl MirrorFiles.write files).lastJournal := by
  induction todo generalizing files with
  | nil => exact written
  | cons write todo ih =>
    exact ih (fun later held => sound later (mem_cons_of_mem _ held))
      (written.write (sound write mem_cons_self))

variable {disk : MirrorMeta} {lastJournal lastState : Option MirrorStore}

/-- Only the records are looked at. -/
theorem Written.of_records {disk' : MirrorMeta} (written : Written disk lastState lastJournal)
    (state : disk'.state = disk.state) (journal : disk'.journal = disk.journal) :
    Written disk' lastState lastJournal where
  state := state.trans written.state
  journal := journal.trans written.journal
  stateStorable := written.stateStorable
  journalStorable := written.journalStorable

theorem Written.cut {todo : List Write} (sound : ∀ write ∈ todo, write.Sound) {files : MirrorFiles}
    (written : Written files.disk files.lastState files.lastJournal) (whole bytes : Nat) :
    Written (files.cut todo whole bytes).disk (files.cut todo whole bytes).lastState
      (files.cut todo whole bytes).lastJournal := by
  have first : ∀ write ∈ todo.take whole, write.Sound := fun write held =>
    sound write (mem_of_mem_take held)
  have before := Written.foldl first written
  unfold MirrorFiles.cut
  split
  next write _ => exact before.of_records (by cases write <;> rfl) (by cases write <;> rfl)
  · exact before

theorem storable_afterOp (storable : store.Storable) (op : StoreOp) :
    (afterOp store op).Storable := by
  obtain ⟨entries, ops, manifestId, pulledUnsaved, _⟩ := storable
  cases op with
  | writePulledHint => exact ⟨entries, ops, manifestId, pulledUnsaved, by rintro _ ⟨⟩⟩
  | saveJournal =>
    unfold afterOp
    dsimp only
    split
    · exact ⟨entries, ops, manifestId, pulledUnsaved, ‹_›⟩
    · exact ⟨entries, ops, manifestId, pulledUnsaved, by rintro _ ⟨⟩⟩
  | save => exact ⟨entries, ops, manifestId, by rintro _ ⟨⟩, by rintro _ ⟨⟩⟩

theorem storable_notePulled (storable : store.Storable) {path : Path}
    (safe : isSafeRelativePath path) (hash : ContentHash) :
    (notePulled path hash store).Storable where
  entries := storable.entries
  ops := storable.ops
  manifestId := storable.manifestId
  pulledUnsaved := by
    intro row listed
    rcases OrderedTable.mem_set.mp listed with rfl | ⟨earlier, _⟩
    · exact safe
    · exact storable.pulledUnsaved row earlier
  pulledUnwritten := by
    intro record held
    rcases mem_append.mp held with earlier | own
    · exact storable.pulledUnwritten record earlier
    · rw [mem_singleton.mp own]
      exact safe

/-- Reading the hint changes no record, and what it leaves can be stored. -/
theorem readPulled_keeps (fileHash : Path → Option ContentHash) (disk : MirrorMeta)
    (storable : store.Storable) : (readPulled fileHash disk store).1.Storable ∧
      (readPulled fileHash disk store).2.state = disk.state ∧
      (readPulled fileHash disk store).2.journal = disk.journal := by
  unfold readPulled
  split
  · exact ⟨storable, rfl, rfl⟩
  next hint _ =>
    have adopted := storable_adopted fileHash (safe_readPulledHint hint) storable
    dsimp only
    split
    · refine ⟨⟨adopted.entries, adopted.ops, adopted.manifestId, adopted.pulledUnsaved, ?_⟩,
        rfl, rfl⟩
      intro record held
      rcases mem_append.mp held with unwritten | unsaved
      · exact adopted.pulledUnwritten record unwritten
      · exact adopted.pulledUnsaved record unsaved
    · exact ⟨adopted, rfl, rfl⟩

/-- Open succeeds on files as they were written, whatever the hint holds. -/
theorem Written.openMirror (written : Written disk lastState lastJournal)
    (fileHash : Path → Option ContentHash) :
    ∃ opened, openMirror fileHash disk = .ok opened ∧ opened.1.Storable ∧
      opened.2.state = disk.state ∧ opened.2.journal = disk.journal := by
  cases lastState with
  | none => exact ⟨_, written.openMirror_none fileHash, storable_empty, rfl, rfl⟩
  | some store =>
    exact ⟨_, written.openMirror_some fileHash, readPulled_keeps fileHash disk written.storable⟩

variable {s : MirrorRun}

namespace MirrorRun

theorem sound_step {s' : MirrorRun} {action : MirrorAction} (sound : s.Sound)
    (taken : s.step action = some s') : s'.Sound := by
  cases action with
  | change contents =>
    obtain rfl := Option.some.inj taken
    have kept := contents.storable
    exact ⟨⟨kept.entries, kept.ops, kept.manifestId, sound.store.pulledUnsaved,
      sound.store.pulledUnwritten⟩, sound.written⟩
  | note path hash =>
    simp only [step, ite_none_right_eq_some] at taken
    obtain ⟨safe, same⟩ := taken
    obtain rfl := Option.some.inj same
    exact ⟨storable_notePulled sound.store safe hash, sound.written⟩
  | run op =>
    simp only [step, ite_none_right_eq_some] at taken
    obtain ⟨fits, same⟩ := taken
    obtain rfl := Option.some.inj same
    exact ⟨storable_afterOp sound.store op, sound.written.foldl (sound_writes sound.store fits op)⟩
  | crash op whole bytes fileHash =>
    simp only [step, ite_none_right_eq_some] at taken
    obtain ⟨fits, same⟩ := taken
    have cut := sound.written.cut (sound_writes sound.store fits op) whole bytes
    obtain ⟨opened, answered, storable, state, journal⟩ := cut.openMirror fileHash
    rw [answered] at same
    obtain rfl := Option.some.inj same
    exact ⟨storable, cut.of_records state journal⟩

theorem sound_start : ({} : MirrorRun).Sound where
  store := storable_empty
  written := ⟨rfl, rfl, by rintro _ ⟨⟩, by rintro _ ⟨⟩⟩

end MirrorRun

/-! ### What Open answers after a crash -/

/-- The records a reader of the hint file sees. -/
def MirrorMeta.hint (disk : MirrorMeta) : List (Path × ContentHash) :=
  (readPulledHint (disk.pulled.getD [])).pulled

/-- The store the pending set was last written from. -/
def MirrorFiles.pendingFrom (files : MirrorFiles) : Option MirrorStore :=
  files.lastJournal.or files.lastState

/-- On a pending path, what the hint last says and what every pull not written to it says are
the bytes the push was made on. -/
def MirrorStore.Agrees (saved : MirrorStore) (hint unwritten : List (Path × ContentHash)) : Prop :=
  ∀ path ∈ saved.pendingPaths,
    (∀ hash ∈ lastNoted hint path, (saved.entry path).base = some hash) ∧
    ∀ record ∈ unwritten, record.1 = path → (saved.entry path).base = some record.2

instance decidableAgrees (saved : MirrorStore) (hint unwritten : List (Path × ContentHash)) :
    Decidable (saved.Agrees hint unwritten) := by
  unfold MirrorStore.Agrees
  infer_instance

/-- The hint file ends with a whole record. -/
def MirrorMeta.HintWhole (disk : MirrorMeta) : Prop :=
  disk.pulled.getD [] = [] ∨ (readPulledHint (disk.pulled.getD [])).whole = true

instance decidableHintWhole (disk : MirrorMeta) : Decidable disk.HintWhole := by
  unfold MirrorMeta.HintWhole
  infer_instance

/-- A pull of a path whose push is pending on disk pulls what the push was made on; a journal
is written where it agrees with the hint, and so is a state that a crash leaves without one; no
torn record is left behind a mirror without a state. -/
def MirrorRun.Careful (s : MirrorRun) : MirrorAction → Prop
  | .change _ => True
  | .note path hash => ∀ saved ∈ s.files.pendingFrom, path ∈ saved.pendingPaths →
      (saved.entry path).base = some hash
  | .run op => op = .saveJournal → s.store.Agrees s.files.disk.hint s.store.pulledUnwritten
  | .crash op whole bytes _ =>
      (op = .saveJournal → s.store.Agrees s.files.disk.hint s.store.pulledUnwritten) ∧
      (op = .save → s.files.lastJournal.isSome ∨ s.store.Agrees s.files.disk.hint []) ∧
      ((s.files.cut (writes s.store op) whole bytes).lastState.isSome ∨
        (s.files.cut (writes s.store op) whole bytes).disk.HintWhole)

instance decidableCareful (s : MirrorRun) (action : MirrorAction) :
    Decidable (s.Careful action) := by
  cases action <;> unfold MirrorRun.Careful <;> infer_instance

/-- The hint file can be appended to, and agrees with the pending set on disk. -/
structure MirrorFiles.Aligned (files : MirrorFiles) (unwritten : List (Path × ContentHash)) :
    Prop where
  hint : ∃ records, HoldsPulled (files.disk.pulled.getD []) records ∧
    ∀ record ∈ records, isSafeRelativePath record.1
  agrees : ∀ saved ∈ files.pendingFrom, saved.Agrees files.disk.hint unwritten

/-- The same of files a crash leaves, whose hint may end with a torn record. -/
structure MirrorFiles.CutAligned (files : MirrorFiles) : Prop where
  hint : files.disk.HintWhole → ∃ records, HoldsPulled (files.disk.pulled.getD []) records ∧
    ∀ record ∈ records, isSafeRelativePath record.1
  agrees : ∀ saved ∈ files.pendingFrom, saved.Agrees files.disk.hint []

theorem pulled_of_holds {held : List UInt8} {records : List (Path × ContentHash)}
    (holds : HoldsPulled held records) (safe : ∀ record ∈ records, isSafeRelativePath record.1) :
    (readPulledHint held).pulled = records := by
  rcases holds with ⟨rfl, rfl⟩ | rfl
  · rfl
  · have read := readPulledHint_records safe (.inl rfl)
    rw [append_nil] at read
    rw [read]

theorem MirrorStore.Agrees.nil {saved : MirrorStore} {hint unwritten : List (Path × ContentHash)}
    (agrees : saved.Agrees hint unwritten) : saved.Agrees hint [] := by
  intro path pending
  exact ⟨(agrees path pending).1, by rintro _ ⟨⟩⟩

/-- Records written to the hint are those that agreed before. -/
theorem MirrorStore.Agrees.append {saved : MirrorStore}
    {hint notes written : List (Path × ContentHash)} (agrees : saved.Agrees hint notes)
    (among : ∀ record ∈ written, record ∈ notes) : saved.Agrees (hint ++ written) [] := by
  intro path pending
  obtain ⟨last, each⟩ := agrees path pending
  refine ⟨?_, by rintro _ ⟨⟩⟩
  intro hash noted
  rw [lastNoted_append] at noted
  rcases or_eq_some_iff.mp noted with late | ⟨_, early⟩
  · exact each _ (among _ (mem_of_lastNoted late)) rfl
  · exact last hash early

namespace MirrorFiles

variable {files : MirrorFiles} {notes : List (Path × ContentHash)}

section

variable (aligned : files.Aligned notes)

include aligned

theorem Aligned.cutAligned : files.CutAligned where
  hint := fun _ => aligned.hint
  agrees := fun saved from_ => (aligned.agrees saved from_).nil

/-- An append agrees wherever it is cut. -/
theorem Aligned.torn (safe : ∀ record ∈ notes, isSafeRelativePath record.1) (bytes : Nat) :
    CutAligned { files with disk := (Write.appendPulled notes).torn bytes files.disk } := by
  obtain ⟨⟨records, holds, safeRecords⟩, agrees⟩ := aligned
  obtain ⟨whole, read, ends⟩ := readPulledHint_append holds safeRecords safe bytes
  have pulled := pulled_of_holds holds safeRecords
  have safeAll : ∀ record ∈ records ++ notes.take whole, isSafeRelativePath record.1 := by
    intro record held
    rcases mem_append.mp held with early | late
    · exact safeRecords record early
    · exact safe record (mem_of_mem_take late)
  constructor
  · rintro (empty | finished)
    · refine ⟨[], .inl ⟨?_, rfl⟩, by rintro _ ⟨⟩⟩
      exact empty
    · exact ⟨_, ends finished, safeAll⟩
  · intro saved from_
    have hint : MirrorMeta.hint ((Write.appendPulled notes).torn bytes files.disk) =
        files.disk.hint ++ notes.take whole := by
      rw [MirrorMeta.hint, MirrorMeta.hint, pulled]
      change (readPulledHint (_ ++ _)).pulled = _
      rw [read]
    rw [hint]
    exact (agrees saved from_).append fun record held => mem_of_mem_take held

theorem Aligned.append (safe : ∀ record ∈ notes, isSafeRelativePath record.1) :
    (files.write (.appendPulled notes)).Aligned [] := by
  obtain ⟨⟨records, holds, safeRecords⟩, agrees⟩ := aligned
  have safeAll : ∀ record ∈ records ++ notes, isSafeRelativePath record.1 := by
    intro record held
    rcases mem_append.mp held with early | late
    · exact safeRecords record early
    · exact safe record late
  have longer : HoldsPulled ((files.write (.appendPulled notes)).disk.pulled.getD [])
      (records ++ notes) := by
    change HoldsPulled (files.disk.pulled.getD [] ++ pulledAppend _ notes) _
    rcases holds with ⟨empty, rfl⟩ | held
    · rw [empty]
      exact .inr rfl
    · have started : (putVarint kPulledHintVersion ++ records.flatMap putPulled).isEmpty = false :=
        rfl
      rw [held, pulledAppend, started]
      exact .inr (by simp)
  refine ⟨⟨_, longer, safeAll⟩, ?_⟩
  intro saved from_
  rw [MirrorMeta.hint, pulled_of_holds longer safeAll, ← pulled_of_holds holds safeRecords]
  exact (agrees saved from_).append fun _ held => held

end

/-- Without a hint file anything agrees. -/
theorem aligned_of_none (none : files.disk.pulled = none) : files.Aligned [] := by
  refine ⟨⟨[], .inl ⟨by rw [none]; rfl, rfl⟩, by rintro _ ⟨⟩⟩, ?_⟩
  intro saved _ path _
  have hint : files.disk.hint = [] := by rw [MirrorMeta.hint, none]; rfl
  rw [hint]
  exact ⟨by rintro _ ⟨⟩, by rintro _ ⟨⟩⟩

theorem Aligned.journal (aligned : files.Aligned notes)
    (agrees : store.Agrees files.disk.hint notes) : (files.write (.journal store)).Aligned notes :=
  ⟨aligned.hint, by rintro _ ⟨⟩; exact agrees⟩

@[simp] theorem cut_nil (whole bytes : Nat) : files.cut [] whole bytes = files := by
  simp [cut]

@[simp] theorem cut_succ (write : Write) (todo : List Write) (whole bytes : Nat) :
    files.cut (write :: todo) (whole + 1) bytes = (files.write write).cut todo whole bytes := rfl

theorem Aligned.cut_hintWrites (aligned : files.Aligned store.pulledUnwritten)
    (storable : store.Storable) (whole bytes : Nat) :
    (files.cut (hintWrites store) whole bytes).CutAligned := by
  unfold hintWrites
  split
  · rw [cut_nil]
    exact aligned.cutAligned
  · cases whole with
    | zero => exact aligned.torn storable.pulledUnwritten bytes
    | succ whole =>
      rw [cut_succ, cut_nil]
      exact (aligned.append storable.pulledUnwritten).cutAligned

theorem Aligned.foldl_hintWrites (aligned : files.Aligned store.pulledUnwritten)
    (storable : store.Storable) : ((hintWrites store).foldl write files).Aligned [] := by
  unfold hintWrites
  split
  next none =>
    rw [List.isEmpty_iff.mp none] at aligned
    exact aligned
  · exact aligned.append storable.pulledUnwritten

end MirrorFiles

namespace MirrorRun

structure Aligned (s : MirrorRun) : Prop where
  sound : s.Sound
  files : s.files.Aligned s.store.pulledUnwritten

theorem Aligned.cut (aligned : s.Aligned) {op : StoreOp} {whole bytes : Nat}
    {fileHash : Path → Option ContentHash} (careful : s.Careful (.crash op whole bytes fileHash)) :
    (s.files.cut (writes s.store op) whole bytes).CutAligned := by
  obtain ⟨journaled, stated, _⟩ := careful
  have storable := aligned.sound.store
  cases op with
  | writePulledHint => exact aligned.files.cut_hintWrites storable whole bytes
  | saveJournal =>
    cases whole with
    | zero => exact aligned.files.cutAligned
    | succ whole =>
      have written := aligned.files.journal (journaled rfl)
      rw [writes, MirrorFiles.cut_succ]
      split
      · rw [MirrorFiles.cut_nil]
        exact written.cutAligned
      · exact written.cut_hintWrites storable whole bytes
  | save =>
    match whole with
    | 0 => exact aligned.files.cutAligned
    | 1 =>
      refine ⟨fun _ => aligned.files.hint, ?_⟩
      intro saved from_
      change saved ∈ s.files.lastJournal.or (some s.store) at from_
      rcases stated rfl with journal | agrees
      · obtain ⟨journal, last⟩ := isSome_iff_exists.mp journal
        refine (aligned.files.agrees saved ?_).nil
        rw [last] at from_
        rw [MirrorFiles.pendingFrom, last]
        exact from_
      · cases last : s.files.lastJournal with
        | none =>
          rw [last] at from_
          obtain rfl := Option.some.inj from_
          exact agrees
        | some journal =>
          refine (aligned.files.agrees saved ?_).nil
          rw [last] at from_
          rw [MirrorFiles.pendingFrom, last]
          exact from_
    | 2 => exact (MirrorFiles.aligned_of_none rfl).cutAligned
    | whole + 3 =>
      simp only [writes, MirrorFiles.cut_succ, MirrorFiles.cut_nil]
      exact (MirrorFiles.aligned_of_none rfl).cutAligned

theorem Aligned.run (aligned : s.Aligned) {op : StoreOp} (careful : s.Careful (.run op)) :
    ((writes s.store op).foldl MirrorFiles.write s.files).Aligned
      (afterOp s.store op).pulledUnwritten := by
  have storable := aligned.sound.store
  cases op with
  | writePulledHint => exact aligned.files.foldl_hintWrites storable
  | saveJournal =>
    have written := aligned.files.journal (careful rfl)
    rw [writes, foldl_cons, afterOp]
    split
    · exact written
    · exact written.foldl_hintWrites storable
  | save => exact MirrorFiles.aligned_of_none rfl

end MirrorRun

/-! ### A mirror survives its restarts -/

def filled (byte : UInt8) : ContentHash := ⟨List.replicate kContentHashBytes byte, rfl⟩

end Microide.Remote
