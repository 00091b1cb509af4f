/-
Manifest and watch-delta chunks.

Rows on the wire: each path without the bytes it shares with the path before it, then the
kind, the size, the mode and the time as varints, and the tail its kind has (a file's hash,
a link's target). A delta is the deleted paths and a chunk of rows. The decoders face
untrusted bytes, and leave their output as it was when they refuse them.

**Main results.** `decodeManifestRows_encode`, `decodeWatchDelta_encode`: decoding undoes
encoding; `decodeManifestRows_sound`: what is refused changes nothing, and what is accepted
are rows the encoder could have written.
-/

import Microide.Lib.ByteCodec
import Microide.Remote.MirrorStore

namespace Microide.Remote

open List Lib ByteReader ManifestEntryKind

/-! ### Hashes and signed numbers -/

def kContentHashBytes : Nat := 32

/-- A content hash: its bytes. -/
structure ContentHash where
  raw : List UInt8
  size : raw.length = kContentHashBytes
  deriving DecidableEq

/-- A default-constructed hash. -/
def ContentHash.zero : ContentHash := ⟨List.replicate kContentHashBytes 0, by simp⟩

/-- `ZigZag`: a 64-bit signed number as an unsigned one, small for small magnitudes. -/
def zigZag (value : Int) : Nat :=
  if 0 ≤ value then 2 * value.toNat else 2 * (-value - 1).toNat + 1

def unZigZag (value : Nat) : Int :=
  if value % 2 = 0 then (value / 2 : Nat) else -((value / 2 : Nat) : Int) - 1

/-! ### Rows on the wire -/

namespace ManifestEntryKind

def code : ManifestEntryKind → Nat
  | file => 0
  | symlink => 1
  | submodule => 2

def ofCode : Nat → Option ManifestEntryKind
  | 0 => some file
  | 1 => some symlink
  | 2 => some submodule
  | _ => none

end ManifestEntryKind

@[simp] theorem ManifestEntryKind.ofCode_code (kind : ManifestEntryKind) :
    ofCode kind.code = some kind := by
  cases kind <;> rfl

abbrev WireRow := ManifestRow ContentHash

/-- The bytes two paths start with in common. -/
def sharedLength : Path → Path → Nat
  | a :: as, b :: bs => if a = b then sharedLength as bs + 1 else 0
  | _, _ => 0

/-- The tail a row's kind has. -/
def encodeTail (row : WireRow) : List UInt8 :=
  match row.kind with
  | .file => row.hash.raw
  | .symlink => putBytes row.linkTarget
  | .submodule => []

def encodeRow (previous : Path) (row : WireRow) : List UInt8 :=
  let shared := sharedLength previous row.path
  putVarint shared ++ putBytes (row.path.drop shared) ++ putLe row.kind.code 1 ++
    putVarint row.size ++ putVarint row.mode ++ putVarint (zigZag row.mtimeNs) ++ encodeTail row

def encodeRowsFrom : Path → List WireRow → List UInt8
  | _, [] => []
  | previous, row :: rows => encodeRow previous row ++ encodeRowsFrom row.path rows

/-- `EncodeManifestRows`. -/
def encodeManifestRows (rows : List WireRow) : List UInt8 :=
  putVarint rows.length ++ encodeRowsFrom [] rows

def kMaxMode : Nat := 0o7777

/-- The tail of a row of a known kind, with the row. -/
def decodeTail (row : WireRow) (reader : ByteReader) : Option (WireRow × ByteReader) :=
  match row.kind with
  | .file =>
      let (raw, reader) := reader.raw kContentHashBytes
      if size : raw.length = kContentHashBytes then
        if reader.failed then none else some ({ row with hash := ⟨raw, size⟩ }, reader)
      else none
  | .symlink =>
      let (target, reader) := reader.bytes kMaxManifestPathBytes
      if reader.failed || target.isEmpty || target.contains 0 then none
      else some ({ row with linkTarget := target }, reader)
  | .submodule => some (row, reader)

/-- A row's path, where its bytes were read. -/
def rowPath (previous : Path) (shared : Nat) (rest : List UInt8) (reader : ByteReader) : Path :=
  if reader.failed then [] else previous.take shared ++ rest

/-- One row behind a row at `previous`. -/
def decodeRow (previous : Path) (reader : ByteReader) : Option (WireRow × ByteReader) :=
  let (shared, reader) := reader.varint
  if reader.failed || previous.length < shared then none
  else
    let (rest, reader) := reader.bytes kMaxManifestPathBytes
    let path := rowPath previous shared rest reader
    let (kind, reader) := reader.le 1
    let (size, reader) := reader.varint
    let (mode, reader) := reader.varint
    let (time, reader) := reader.varint
    if reader.failed || kMaxMode < mode || !isSafeRelativePath path then none
    else
      match ManifestEntryKind.ofCode kind with
      | none => none
      | some kind =>
          decodeTail { path, kind, size, mode, mtimeNs := unZigZag time, hash := .zero } reader

def decodeRowsFrom : Nat → Path → ByteReader → Option (List WireRow × ByteReader)
  | 0, _, reader => some ([], reader)
  | count + 1, previous, reader =>
      match decodeRow previous reader with
      | none => none
      | some (row, reader) =>
          match decodeRowsFrom count row.path reader with
          | none => none
          | some (rows, reader) => some (row :: rows, reader)

/-- `DecodeManifestRows`: whether the bytes were accepted, and the rows afterwards. -/
def decodeManifestRows (bytes : List UInt8) (rows : List WireRow) : Bool × List WireRow :=
  let (count, reader) := ByteReader.varint ⟨bytes, false⟩
  if reader.failed || reader.remaining / 5 + 1 < count then (false, rows)
  else
    match decodeRowsFrom count [] reader with
    | none => (false, rows)
    | some (decoded, reader) =>
        if reader.failed || !reader.atEnd then (false, rows) else (true, rows ++ decoded)

/-! ### Deltas on the wire -/

/-- `EncodeWatchDelta`. -/
def encodeWatchDelta (deleted : List Path) (rows : List WireRow) : List UInt8 :=
  putVarint deleted.length ++ (deleted.map putBytes).flatten ++ encodeManifestRows rows

def decodePaths : Nat → ByteReader → Option (List Path × ByteReader)
  | 0, reader => some ([], reader)
  | count + 1, reader =>
      let (path, reader) := reader.bytes kMaxManifestPathBytes
      if reader.failed || !isSafeRelativePath path then none
      else
        match decodePaths count reader with
        | none => none
        | some (paths, reader) => some (path :: paths, reader)

/-- `DecodeWatchDelta`: whether the bytes were accepted, and both outputs afterwards. -/
def decodeWatchDelta (bytes : List UInt8) (deleted : List Path) (rows : List WireRow) :
    Bool × List Path × List WireRow :=
  let (count, reader) := ByteReader.varint ⟨bytes, false⟩
  if reader.failed || bytes.length < count then (false, deleted, rows)
  else
    match decodePaths count reader with
    | none => (false, deleted, rows)
    | some (paths, reader) =>
        match decodeManifestRows reader.rest rows with
        | (false, rows) => (false, deleted, rows)
        | (true, rows) => (true, deleted ++ paths, rows)

/-! ### Signed numbers -/

theorem unZigZag_zigZag (value : Int) : unZigZag (zigZag value) = value := by
  unfold zigZag
  split
  next nonneg =>
    have half : 2 * value.toNat / 2 = value.toNat := by omega
    simp [unZigZag, half, Int.toNat_of_nonneg nonneg]
  next neg =>
    simp only [unZigZag]
    omega

theorem zigZag_lt {value : Int} (low : -2 ^ 63 ≤ value) (high : value < 2 ^ 63) :
    zigZag value < 2 ^ 64 := by
  unfold zigZag
  split <;> omega

theorem unZigZag_range {value : Nat} (fits : value < 2 ^ 64) :
    -2 ^ 63 ≤ unZigZag value ∧ unZigZag value < 2 ^ 63 := by
  unfold unZigZag
  split <;> omega

/-! ### Rows that go on the wire -/

/-- A row the protocol admits; the size and the time are those of 64-bit fields. -/
structure ValidRow (row : WireRow) : Prop where
  path : isSafeRelativePath row.path
  mode : row.mode ≤ kMaxMode
  link : row.kind = .symlink →
    row.linkTarget ≠ [] ∧ 0 ∉ row.linkTarget ∧ row.linkTarget.length ≤ kMaxManifestPathBytes
  size : row.size < 2 ^ 64
  time : -2 ^ 63 ≤ row.mtimeNs ∧ row.mtimeNs < 2 ^ 63

/-- A row with only the fields its kind has. -/
def carried (row : WireRow) : WireRow :=
  { row with
    hash := if row.kind = .file then row.hash else .zero
    linkTarget := if row.kind = .symlink then row.linkTarget else [] }

variable {row : WireRow}

theorem carried_eq_self (hash : row.kind ≠ .file → row.hash = .zero)
    (target : row.kind ≠ .symlink → row.linkTarget = []) : carried row = row := by
  obtain ⟨path, kind, size, mode, mtimeNs, rowHash, linkTarget⟩ := row
  cases kind <;> simp_all [carried]

theorem length_path_le {path : Path} (safe : isSafeRelativePath path) :
    path.length ≤ kMaxManifestPathBytes := by
  simpa using (Bool.and_eq_true _ _ |>.mp safe).1

theorem sharedLength_le (previous path : Path) :
    sharedLength previous path ≤ previous.length ∧ sharedLength previous path ≤ path.length := by
  induction previous generalizing path with
  | nil => simp [sharedLength]
  | cons a as ih =>
    cases path with
    | nil => simp [sharedLength]
    | cons b bs =>
      unfold sharedLength
      split
      · simpa using ih bs
      · simp

/-- The shared bytes and the rest are the path. -/
theorem take_sharedLength (previous path : Path) :
    previous.take (sharedLength previous path) ++ path.drop (sharedLength previous path) =
      path := by
  induction previous generalizing path with
  | nil => simp [sharedLength]
  | cons a as ih =>
    cases path with
    | nil => simp [sharedLength]
    | cons b bs =>
      unfold sharedLength
      split
      next same => simp [same, ih bs]
      next => simp

/-! ### Decoding undoes encoding -/

theorem decodeTail_encodeTail (valid : ValidRow row) (rest : List UInt8) :
    decodeTail { row with hash := .zero, linkTarget := [] } ⟨encodeTail row ++ rest, false⟩ =
      some (carried row, ⟨rest, false⟩) := by
  obtain ⟨path, kind, size, mode, mtimeNs, hash, linkTarget⟩ := row
  cases kind with
  | file =>
    simp [decodeTail, encodeTail, carried, hash.size]
  | symlink =>
    obtain ⟨nonempty, noNul, short⟩ := valid.link rfl
    have small : linkTarget.length < 2 ^ 64 := short.trans_lt (by decide)
    have read := bytes_putBytes short small rest
    simp [decodeTail, encodeTail, carried, read, nonempty, noNul]
  | submodule => simp [decodeTail, encodeTail, carried]

theorem decodeRow_encodeRow (valid : ValidRow row) (previous : Path) (rest : List UInt8) :
    decodeRow previous ⟨encodeRow previous row ++ rest, false⟩ =
      some (carried row, ⟨rest, false⟩) := by
  obtain ⟨sharedPrevious, sharedPath⟩ := sharedLength_le previous row.path
  have pathLength := length_path_le valid.path
  have shared : sharedLength previous row.path < 2 ^ 64 :=
    (sharedPath.trans pathLength).trans_lt (by decide)
  have dropped : (row.path.drop (sharedLength previous row.path)).length ≤
      kMaxManifestPathBytes := by
    rw [length_drop]
    omega
  have droppedSmall : (row.path.drop (sharedLength previous row.path)).length < 2 ^ 64 :=
    dropped.trans_lt (by decide)
  have kind : row.kind.code < 256 ^ 1 := by cases row.kind <;> decide
  have mode : row.mode < 2 ^ 64 := valid.mode.trans_lt (by decide)
  have time := zigZag_lt valid.time.1 valid.time.2
  unfold decodeRow encodeRow
  simp only [append_assoc, varint_putVarint shared,
    bytes_putBytes dropped droppedSmall, le_putLe kind,
    varint_putVarint valid.size, varint_putVarint mode,
    varint_putVarint time, rowPath, take_sharedLength, unZigZag_zigZag,
    ofCode_code]
  have refused : (false || decide (previous.length < sharedLength previous row.path)) = false := by
    simp [sharedPrevious]
  have refused' : (false || decide (kMaxMode < row.mode) || !isSafeRelativePath row.path) =
      false := by
    simp [valid.path, valid.mode]
  simp only [refused, Bool.false_eq_true, if_false, refused']
  exact decodeTail_encodeTail valid rest

variable {rows : List WireRow}

theorem decodeRowsFrom_encode (valid : ∀ row ∈ rows, ValidRow row) :
    ∀ (previous : Path) (rest : List UInt8),
      decodeRowsFrom rows.length previous ⟨encodeRowsFrom previous rows ++ rest, false⟩ =
        some (rows.map carried, ⟨rest, false⟩) := by
  induction rows with
  | nil => exact fun _ _ => rfl
  | cons row rows ih =>
    intro previous rest
    have first := decodeRow_encodeRow (valid row mem_cons_self) previous
      (encodeRowsFrom row.path rows ++ rest)
    have others := ih (fun other mem => valid other (mem_cons_of_mem _ mem)) row.path rest
    have path : (carried row).path = row.path := rfl
    simp only [length_cons, decodeRowsFrom, encodeRowsFrom, append_assoc, first, path,
      others, map_cons]

/-- Each row takes at least five bytes. -/
theorem length_encodeRowsFrom (rows : List WireRow) :
    ∀ previous, 5 * rows.length ≤ (encodeRowsFrom previous rows).length := by
  induction rows with
  | nil => simp
  | cons row rows ih =>
    intro previous
    have others := ih row.path
    have shared := length_putVarint_pos (sharedLength previous row.path)
    have rest := length_putVarint_pos (row.path.drop (sharedLength previous row.path)).length
    have size := length_putVarint_pos row.size
    have mode := length_putVarint_pos row.mode
    simp only [encodeRowsFrom, encodeRow, putBytes, length_append, length_putLe, length_cons]
    omega

/-- The decoder appends the rows the encoder wrote. -/
theorem decodeManifestRows_encode (count : rows.length < 2 ^ 64)
    (valid : ∀ row ∈ rows, ValidRow row) (before : List WireRow) :
    decodeManifestRows (encodeManifestRows rows) before =
      (true, before ++ rows.map carried) := by
  have long := length_encodeRowsFrom rows []
  have enough : ¬ (encodeRowsFrom [] rows).length / 5 + 1 < rows.length := by omega
  have decoded := decodeRowsFrom_encode valid [] []
  rw [append_nil] at decoded
  simp [decodeManifestRows, encodeManifestRows, varint_putVarint count,
    remaining, enough, decoded, atEnd]

theorem decodePaths_putBytes {paths : List Path} (safe : ∀ path ∈ paths, isSafeRelativePath path)
    (rest : List UInt8) : decodePaths paths.length ⟨(paths.map putBytes).flatten ++ rest, false⟩ =
      some (paths, ⟨rest, false⟩) := by
  induction paths with
  | nil => rfl
  | cons path paths ih =>
    have here := safe path mem_cons_self
    have short := length_path_le here
    have read := bytes_putBytes short (short.trans_lt (by decide))
      ((paths.map putBytes).flatten ++ rest)
    have others := ih fun other mem => safe other (mem_cons_of_mem _ mem)
    simp [decodePaths, read, here, others]

theorem length_flatten_putBytes (paths : List Path) :
    paths.length ≤ (paths.map putBytes).flatten.length := by
  induction paths with
  | nil => simp
  | cons path paths ih =>
    have size := length_putVarint_pos path.length
    simp only [map_cons, flatten_cons, length_cons, length_append, putBytes]
    omega

theorem decodeWatchDelta_encode {deleted : List Path} (deletedCount : deleted.length < 2 ^ 64)
    (count : rows.length < 2 ^ 64) (safe : ∀ path ∈ deleted, isSafeRelativePath path)
    (valid : ∀ row ∈ rows, ValidRow row) (deletedBefore : List Path) (before : List WireRow) :
    decodeWatchDelta (encodeWatchDelta deleted rows) deletedBefore before =
      (true, deletedBefore ++ deleted, before ++ rows.map carried) := by
  have long := length_flatten_putBytes deleted
  have whole : encodeWatchDelta deleted rows = putVarint deleted.length ++
      ((deleted.map putBytes).flatten ++ encodeManifestRows rows) := by
    rw [encodeWatchDelta, append_assoc]
  have enough : ¬ (encodeWatchDelta deleted rows).length < deleted.length := by
    simp only [encodeWatchDelta, length_append]
    omega
  have paths := decodePaths_putBytes safe (encodeManifestRows rows)
  rw [whole] at enough ⊢
  unfold decodeWatchDelta
  rw [varint_putVarint deletedCount]
  dsimp only
  rw [if_neg (by simpa only [Bool.false_or, decide_eq_true_eq] using enough), paths]
  dsimp only
  rw [decodeManifestRows_encode count valid before]

/-! ### What is accepted -/

theorem decodeTail_sound {row' : WireRow} {reader reader' : ByteReader} (hash : row.hash = .zero)
    (target : row.linkTarget = []) (path : isSafeRelativePath row.path) (mode : row.mode ≤ kMaxMode)
    (size : row.size < 2 ^ 64) (time : -2 ^ 63 ≤ row.mtimeNs ∧ row.mtimeNs < 2 ^ 63)
    (decoded : decodeTail row reader = some (row', reader')) :
    ValidRow row' ∧ carried row' = row' := by
  obtain ⟨rowPath, kind, rowSize, rowMode, mtimeNs, rowHash, linkTarget⟩ := row
  subst hash target
  cases kind with
  | file =>
    simp only [decodeTail] at decoded
    split at decoded
    next rawSize =>
      split at decoded
      · cases decoded
      · cases decoded
        exact ⟨⟨path, mode, by simp, size, time⟩, rfl⟩
    · cases decoded
  | symlink =>
    simp only [decodeTail] at decoded
    split at decoded
    · cases decoded
    next accepted =>
      cases decoded
      simp only [Bool.or_eq_true, not_or] at accepted
      obtain ⟨⟨-, nonempty⟩, noNul⟩ := accepted
      refine ⟨⟨path, mode, fun _ => ⟨?_, ?_, ?_⟩, size, time⟩, rfl⟩
      · simpa using nonempty
      · simpa using noNul
      · exact length_bytes_le reader _
  | submodule =>
    obtain ⟨rfl, rfl⟩ := decoded
    exact ⟨⟨path, mode, by simp, size, time⟩, rfl⟩

/-- A row that was accepted is one the encoder could have written. -/
theorem decodeRow_sound {previous : Path} {reader reader' : ByteReader}
    (decoded : decodeRow previous reader = some (row, reader')) :
    ValidRow row ∧ carried row = row := by
  unfold decodeRow at decoded
  dsimp only at decoded
  split at decoded
  · cases decoded
  · split at decoded
    · cases decoded
    next accepted =>
      split at decoded
      · cases decoded
      · simp only [Bool.or_eq_true, decide_eq_true_eq, Bool.not_eq_true', not_or,
          Bool.not_eq_false, Nat.not_lt] at accepted
        refine decodeTail_sound rfl rfl accepted.2 accepted.1.2 (varint_lt _)
          (unZigZag_range (varint_lt _)) decoded

theorem decodeRowsFrom_sound (count : Nat) :
    ∀ {previous : Path} {rows : List WireRow} {reader reader' : ByteReader},
      decodeRowsFrom count previous reader = some (rows, reader') →
      ∀ row ∈ rows, ValidRow row ∧ carried row = row := by
  induction count with
  | zero =>
    intro previous rows reader reader' decoded
    cases decoded
    simp
  | succ count ih =>
    intro previous rows reader reader' decoded
    unfold decodeRowsFrom at decoded
    split at decoded
    · cases decoded
    next first =>
      split at decoded
      · cases decoded
      next others =>
        cases decoded
        intro row mem
        rcases mem_cons.mp mem with rfl | mem
        · exact decodeRow_sound first
        · exact ih others row mem

/-- Refused bytes change nothing; accepted ones append rows the encoder could have written. -/
theorem decodeManifestRows_sound (bytes : List UInt8) (before : List WireRow) :
    decodeManifestRows bytes before = (false, before) ∨
      ∃ rows, decodeManifestRows bytes before = (true, before ++ rows) ∧
        ∀ row ∈ rows, ValidRow row ∧ carried row = row := by
  unfold decodeManifestRows
  dsimp only
  split
  · exact .inl rfl
  · split
    · exact .inl rfl
    next decoded =>
      split
      · exact .inl rfl
      · exact .inr ⟨_, rfl, decodeRowsFrom_sound _ decoded⟩

theorem decodePaths_sound (count : Nat) : ∀ {paths : List Path} {reader reader' : ByteReader},
      decodePaths count reader = some (paths, reader') →
      ∀ path ∈ paths, isSafeRelativePath path := by
  induction count with
  | zero =>
    intro paths reader reader' decoded
    cases decoded
    simp
  | succ count ih =>
    intro paths reader reader' decoded
    simp only [decodePaths] at decoded
    split at decoded
    · cases decoded
    next accepted =>
      split at decoded
      · cases decoded
      next others =>
        cases decoded
        intro path mem
        rcases mem_cons.mp mem with rfl | mem
        · simp only [Bool.or_eq_true, Bool.not_eq_true', not_or, Bool.not_eq_false] at accepted
          exact accepted.2
        · exact ih others path mem

theorem decodeWatchDelta_sound (bytes : List UInt8) (deletedBefore : List Path)
    (before : List WireRow) :
    decodeWatchDelta bytes deletedBefore before = (false, deletedBefore, before) ∨
      ∃ deleted rows, decodeWatchDelta bytes deletedBefore before =
          (true, deletedBefore ++ deleted, before ++ rows) ∧
        (∀ path ∈ deleted, isSafeRelativePath path) ∧
        ∀ row ∈ rows, ValidRow row ∧ carried row = row := by
  unfold decodeWatchDelta
  dsimp only
  split
  · exact .inl rfl
  · split
    · exact .inl rfl
    next paths reader decoded =>
      rcases decodeManifestRows_sound reader.rest before with refused | ⟨rows, accepted, valid⟩
      · rw [refused]
        exact .inl rfl
      · rw [accepted]
        exact .inr ⟨paths, rows, rfl, decodePaths_sound _ decoded, valid⟩

/-! ### The codec -/

/-- Decoding undoes encoding, behind whatever rows and paths were there; refused bytes change
nothing; accepted ones append safe paths and rows the encoder could have written. -/
theorem manifestCodec_exact :
    (∀ rows before, rows.length < 2 ^ 64 → (∀ row ∈ rows, ValidRow row) →
      decodeManifestRows (encodeManifestRows rows) before = (true, before ++ rows.map carried)) ∧
    (∀ deleted rows deletedBefore before, deleted.length < 2 ^ 64 → rows.length < 2 ^ 64 →
      (∀ path ∈ deleted, isSafeRelativePath path) → (∀ row ∈ rows, ValidRow row) →
      decodeWatchDelta (encodeWatchDelta deleted rows) deletedBefore before =
        (true, deletedBefore ++ deleted, before ++ rows.map carried)) ∧
    (∀ row : WireRow, (row.kind ≠ .file → row.hash = .zero) →
      (row.kind ≠ .symlink → row.linkTarget = []) → carried row = row) ∧
    (∀ bytes before, decodeManifestRows bytes before = (false, before) ∨
      ∃ rows, decodeManifestRows bytes before = (true, before ++ rows) ∧
        ∀ row ∈ rows, ValidRow row ∧ carried row = row) ∧
    ∀ bytes deletedBefore before,
      decodeWatchDelta bytes deletedBefore before = (false, deletedBefore, before) ∨
        ∃ deleted rows, decodeWatchDelta bytes deletedBefore before =
            (true, deletedBefore ++ deleted, before ++ rows) ∧
          (∀ path ∈ deleted, isSafeRelativePath path) ∧
          ∀ row ∈ rows, ValidRow row ∧ carried row = row := by
  refine ⟨?_, ?_, fun _ => carried_eq_self, decodeManifestRows_sound, decodeWatchDelta_sound⟩
  · intro rows before count valid
    exact decodeManifestRows_encode count valid before
  · intro deleted rows deletedBefore before deletedCount count safe valid
    exact decodeWatchDelta_encode deletedCount count safe valid deletedBefore before

/-- A link in a directory. -/
def linkRow : WireRow :=
  { path := [0x61, 0x2F, 0x62], kind := .symlink, mtimeNs := -1, hash := .zero, linkTarget := [0x63] }

/-- One deleted path and one link, behind a row that was there. -/
theorem manifestCodec_exact_link :
    decodeWatchDelta (encodeWatchDelta [[0x64]] [linkRow]) [] [linkRow] =
      (true, [[0x64]], [linkRow, linkRow]) := by
  have valid : ∀ row ∈ [linkRow], ValidRow row := by
    intro row mem
    cases mem_singleton.mp mem
    exact ⟨by decide +kernel, by decide, by decide, by decide, by decide⟩
  exact manifestCodec_exact.2.1 [[0x64]] [linkRow] [] [linkRow] (by decide) (by decide)
    (by decide +kernel) valid

/-- A count of no rows in two bytes is accepted, and no rows are written so. -/
theorem decoders_accept_longer_varint :
    decodeManifestRows [0x80, 0x00] [] = (true, []) ∧
      ∀ rows, encodeManifestRows rows ≠ [0x80, 0x00] := by
  refine ⟨by decide +kernel, ?_⟩
  intro rows same
  cases rows with
  | nil => exact absurd same (by decide)
  | cons row rows =>
    have long := length_encodeRowsFrom (row :: rows) []
    have total := congrArg List.length same
    simp only [encodeManifestRows, length_append, length_cons, length_nil] at total long
    omega

end Microide.Remote
