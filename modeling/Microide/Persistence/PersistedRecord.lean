/-
Persisted records.

A record file is a magic, three numbers and a body that the third one, its CRC-32C, guards; a
body is tagged records one after another. The checksum takes a byte at a time from a table. Its
bits are those of the bytes, the least significant first.

**Main results.** `persistedRecord_exact`; `parseRecordStream_accepts_iff`.
-/

import Microide.Lib.ByteCodec
import Microide.Lib.ShiftRegister

namespace Microide.Persistence

open List Lib ByteReader

/-! ### The checksum -/

def crcPolynomial : BitVec 32 := 0x82F63B78

def crcTable : List (BitVec 32) :=
  (range 256).map fun i => (shift crcPolynomial)^[8] (BitVec.ofNat 32 i)

def computeCrc32c (data : List UInt8) : BitVec 32 :=
  ~~~ data.foldl (fun crc byte =>
    let index := (crc ^^^ byte.toBitVec.setWidth 32).setWidth 8
    crcTable.getD index.toNat 0 ^^^ crc >>> 8) 0xFFFFFFFF

def bitsOf (byte : UInt8) : List Bool := (range 8).map byte.toBitVec.getLsbD

theorem crc_step (crc : BitVec 32) (byte : UInt8) :
    crcTable.getD ((crc ^^^ byte.toBitVec.setWidth 32).setWidth 8).toNat 0 ^^^ crc >>> 8 =
      feed crcPolynomial crc (bitsOf byte) := by
  have eight : (bitsOf byte).length = 8 := by rw [bitsOf, length_map, length_range]
  have bits : word 32 (bitsOf byte) = byte.toBitVec.setWidth 32 :=
    BitVec.eq_of_getLsbD_eq fun i inside => by
      rw [getLsbD_word, BitVec.getLsbD_setWidth, bitsOf]
      grind
  have high : (crc ^^^ byte.toBitVec.setWidth 32) >>> 8 = crc >>> 8 := by
    grind
  have entry (low : BitVec 8) :
      crcTable.getD low.toNat 0 = (shift crcPolynomial)^[8] (low.setWidth 32) := by
    have inside : low.toNat < 256 := low.isLt
    have wide : BitVec.ofNat 32 low.toNat = low.setWidth 32 := BitVec.eq_of_toNat_eq (by simp)
    simp [crcTable, inside, wide]
  rw [feed_eq (by rw [eight]; decide), bits, eight, shifts_split, high, entry]

/-- The table-driven checksum is the remainder bit by bit. -/
theorem computeCrc32c_eq (data : List UInt8) :
    computeCrc32c data = ~~~ feed crcPolynomial 0xFFFFFFFF (data.flatMap bitsOf) := by
  unfold computeCrc32c
  simp only [crc_step]
  rw [feed, foldl_flatMap]
  rfl

/-! ### The container -/

/-- `"MIDE"`. -/
def kPersistedRecordMagic : List UInt8 := [0x4D, 0x49, 0x44, 0x45]

def kPersistedRecordFormatVersion : UInt32 := 1

structure PersistedRecordHeader where
  version : UInt32 := kPersistedRecordFormatVersion
  capabilityFlags : UInt32 := 0
  crc32c : BitVec 32 := 0

def persistedRecordHeader (capabilityFlags : UInt32) (crc : BitVec 32) : List UInt8 :=
  kPersistedRecordMagic ++ (putLe kPersistedRecordFormatVersion.toNat 4 ++
    (putLe capabilityFlags.toNat 4 ++ putLe crc.toNat 4))

def buildPersistedRecordFile (body : List UInt8) (capabilityFlags : UInt32) : List UInt8 :=
  persistedRecordHeader capabilityFlags (computeCrc32c body) ++ body

def parsePersistedRecordFile (file : List UInt8) : Option (PersistedRecordHeader × List UInt8) :=
  if file.length < 16 ∨ file.take 4 ≠ kPersistedRecordMagic then none
  else
    let (version, reader) := ByteReader.le ⟨file.drop 4, false⟩ 4
    let (capabilityFlags, reader) := reader.le 4
    let (crc32c, reader) := reader.le 4
    if ¬ reader.failed ∧ computeCrc32c reader.rest = BitVec.ofNat 32 crc32c then
      some (⟨.ofNat version, .ofNat capabilityFlags, .ofNat 32 crc32c⟩, reader.rest)
    else none

/-- The checksum of a header guards whatever body stands behind it. -/
theorem parse_header (flags : UInt32) (crc : BitVec 32) (body : List UInt8) :
    parsePersistedRecordFile (persistedRecordHeader flags crc ++ body) =
      if computeCrc32c body = crc then
        some (⟨kPersistedRecordFormatVersion, flags, crc⟩, body) else none := by
  have versionRead := @le_putLe _ 4 kPersistedRecordFormatVersion.toNat_lt
  have flagsRead := @le_putLe _ 4 flags.toNat_lt
  have crcRead := @le_putLe _ 4 crc.isLt
  unfold parsePersistedRecordFile persistedRecordHeader
  rw [if_neg (by simp [kPersistedRecordMagic]; omega)]
  simp [kPersistedRecordMagic, versionRead, flagsRead, crcRead]

/-! ### Tagged records -/

structure TaggedRecord where
  tag : UInt16
  payload : List UInt8

def taggedBytes (record : TaggedRecord) : List UInt8 :=
  putLe record.tag.toNat 2 ++ (putLe record.payload.length 4 ++ record.payload)

def appendTaggedRecord (out : List UInt8) (record : TaggedRecord) : Option (List UInt8) :=
  if 2 ^ 32 - 1 < record.payload.length then none else some (out ++ taggedBytes record)

def readTaggedRecord (input : List UInt8) (offset : Nat) : Option (TaggedRecord × Nat) :=
  if input.length < offset then none
  else
    let (tag, reader) := ByteReader.le ⟨input.drop offset, false⟩ 2
    let (length, reader) := reader.le 4
    if reader.failed ∨ reader.remaining < length then none
    else some (⟨.ofNat tag, (input.drop (offset + 6)).take length⟩, offset + 6 + length)

/-- The loop of `ParseRecordStream`: the records it read, where it ended, and whether none was
refused. None where the rounds are not enough. -/
def parseRecordStream (input : List UInt8) :
    Nat → Nat → Option (List TaggedRecord × Nat × Bool)
  | 0, _ => none
  | rounds + 1, offset =>
      if input.length ≤ offset then some ([], offset, true)
      else match readTaggedRecord input offset with
        | none => some ([], offset, false)
        | some (record, next) => (parseRecordStream input rounds next).map fun (records, rest) =>
            (record :: records, rest)

theorem readTaggedRecord_within {input : List UInt8} {offset next : Nat} {record : TaggedRecord}
    (read : readTaggedRecord input offset = some (record, next)) :
    offset < next ∧ next ≤ input.length := by
  unfold readTaggedRecord le remaining at read
  grind

theorem readTaggedRecord_written (front rest : List UInt8) {record : TaggedRecord}
    (fits : record.payload.length < 2 ^ 32) :
    readTaggedRecord (front ++ (taggedBytes record ++ rest)) front.length =
      some (record, front.length + (taggedBytes record).length) := by
  have tag := @le_putLe _ 2 record.tag.toNat_lt
  have length := @le_putLe _ 4 fits
  unfold readTaggedRecord taggedBytes
  rw [if_neg (by simp)]
  have payload : (putLe record.tag.toNat 2 ++ (putLe record.payload.length 4 ++
      (record.payload ++ rest))).drop 6 = record.payload ++ rest := by
    rw [← append_assoc, drop_left' (by simp)]
  simp [tag, length, payload, remaining, ← drop_drop]
  omega

theorem parseRecordStream_ends (input : List UInt8) (rounds offset : Nat)
    (enough : input.length < rounds + offset) (inside : offset ≤ input.length) :
    ∃ records stop ok, parseRecordStream input rounds offset = some (records, stop, ok) ∧
      stop ≤ input.length := by
  induction rounds generalizing offset with
  | zero => omega
  | succ rounds ih =>
    unfold parseRecordStream
    split
    · exact ⟨_, _, _, rfl, inside⟩
    · split
      · exact ⟨_, _, _, rfl, inside⟩
      next record next read =>
        obtain ⟨onward, within⟩ := readTaggedRecord_within read
        obtain ⟨records, stop, ok, parsed, stops⟩ := ih next (by omega) within
        exact ⟨record :: records, stop, ok, by rw [parsed]; rfl, stops⟩

theorem foldlM_appendTaggedRecord {records : List TaggedRecord} {front out : List UInt8}
    (written : records.foldlM appendTaggedRecord front = some out) :
    out = front ++ records.flatMap taggedBytes ∧ ∀ r ∈ records, r.payload.length < 2 ^ 32 := by
  induction records generalizing front with
  | nil => simpa using written.symm
  | cons record records ih =>
    rw [foldlM_cons, appendTaggedRecord] at written
    split at written
    · cases written
    · obtain ⟨rfl, fit⟩ := ih written
      exact ⟨by simp, forall_mem_cons.mpr ⟨by omega, fit⟩⟩

theorem parseRecordStream_written {records : List TaggedRecord}
    (fit : ∀ r ∈ records, r.payload.length < 2 ^ 32) (front : List UInt8) {rounds : Nat}
    (enough : (records.flatMap taggedBytes).length < rounds) :
    parseRecordStream (front ++ records.flatMap taggedBytes) rounds front.length =
      some (records, (front ++ records.flatMap taggedBytes).length, true) := by
  induction records generalizing front rounds with
  | nil => cases rounds <;> simp [parseRecordStream] at enough ⊢
  | cons record records ih =>
    obtain ⟨fits, fit⟩ := forall_mem_cons.mp fit
    have positive : 0 < (taggedBytes record).length := by
      rw [taggedBytes, length_append, length_putLe]
      omega
    rw [flatMap_cons, length_append] at enough
    obtain ⟨rounds, rfl⟩ := Nat.exists_eq_add_one.mpr (Nat.zero_lt_of_lt enough)
    have next := @ih fit (front ++ taggedBytes record) rounds (by omega)
    rw [append_assoc, length_append] at next
    have more : ¬ (front ++ (taggedBytes record ++ records.flatMap taggedBytes)).length ≤
        front.length := by
      rw [length_append, length_append]
      omega
    rw [flatMap_cons, parseRecordStream, if_neg more, readTaggedRecord_written _ _ fits]
    dsimp only
    rw [next]
    rfl

/-- A record file is read back; its checksum is the remainder bit by bit, so that no change of
the body within 32 bits passes; tagged records are read back, and no stream is read past its end. -/
theorem persistedRecord_exact (body : List UInt8) (capabilityFlags : UInt32) :
    parsePersistedRecordFile (buildPersistedRecordFile body capabilityFlags) =
        some (⟨kPersistedRecordFormatVersion, capabilityFlags, computeCrc32c body⟩, body) ∧
      computeCrc32c body = ~~~ feed crcPolynomial 0xFFFFFFFF (body.flatMap bitsOf) ∧
      (∀ changed before burst burst' after, body.flatMap bitsOf = before ++ burst ++ after →
        changed.flatMap bitsOf = before ++ burst' ++ after → burst.length = burst'.length →
        burst.length ≤ 32 → burst ≠ burst' → parsePersistedRecordFile
          ((buildPersistedRecordFile body capabilityFlags).take 16 ++ changed) = none) ∧
      (∀ records out, records.foldlM appendTaggedRecord [] = some out →
        parseRecordStream out (out.length + 1) 0 = some (records, out.length, true)) ∧
      ∀ input, ∃ records stop ok,
        parseRecordStream input (input.length + 1) 0 = some (records, stop, ok) ∧
          stop ≤ input.length := by
  refine ⟨?_, computeCrc32c_eq body, ?_, ?_, ?_⟩
  · rw [buildPersistedRecordFile, parse_header, if_pos rfl]
  · intro changed before burst burst' after old new same fits differ
    rw [buildPersistedRecordFile, take_left' (by simp [persistedRecordHeader, kPersistedRecordMagic]),
      parse_header, if_neg]
    intro equal
    rw [computeCrc32c_eq, computeCrc32c_eq, old, new, BitVec.not_inj] at equal
    exact differ (feed_burst_inj (by decide) before after same fits equal.symm)
  · intro records out written
    obtain ⟨rfl, fit⟩ := foldlM_appendTaggedRecord written
    exact parseRecordStream_written fit [] (Nat.lt_succ_self _)
  · exact fun input => parseRecordStream_ends input _ 0 (Nat.lt_succ_self _) (Nat.zero_le _)

/-! ### What is accepted -/

/-- A read that did not fail took the bytes that put its number. -/
theorem le_reads {reader next : ByteReader} {count n : Nat} (read : reader.le count = (n, next))
    (fine : next.failed = false) :
    reader.failed = false ∧ reader.rest = putLe n count ++ next.rest ∧ n < 256 ^ count := by
  have put := putLe_getLe (reader.rest.take count)
  have small := getLe_lt (reader.rest.take count)
  rw [length_take] at put small
  unfold ByteReader.le at read
  grind [take_append_drop]

theorem readTaggedRecord_reads {input : List UInt8} {offset next : Nat} {record : TaggedRecord}
    (read : readTaggedRecord input offset = some (record, next)) :
    input.drop offset = taggedBytes record ++ input.drop next ∧
      record.payload.length < 2 ^ 32 := by
  unfold readTaggedRecord at read
  split at read
  · cases read
  dsimp only at read
  split at read
  · cases read
  next fine =>
    obtain ⟨rfl, rfl⟩ := Prod.mk.inj (Option.some.inj read)
    rw [not_or] at fine
    generalize readTag : ByteReader.le ⟨input.drop offset, false⟩ 2 = tag at fine ⊢
    generalize readLength : tag.2.le 4 = length at fine ⊢
    obtain ⟨notFailed, second, fits⟩ := le_reads readLength (Bool.eq_false_of_not_eq_true fine.1)
    obtain ⟨-, whole, small⟩ := le_reads readTag notFailed
    dsimp only at whole
    rw [second, ← append_assoc] at whole
    have behind : input.drop (offset + 6) = length.2.rest := by
      rw [← drop_drop, whole, drop_left' (by simp)]
    have sized : (length.2.rest.take length.1).length = length.1 :=
      length_take_of_le (Nat.le_of_not_lt fine.2)
    rw [taggedBytes, behind, sized, ← drop_drop, behind, whole, UInt16.toNat_ofNat_of_lt' small,
      append_assoc, append_assoc, append_assoc, take_append_drop]
    exact ⟨rfl, fits⟩

theorem parseRecordStream_reads {input : List UInt8} {rounds offset stop : Nat}
    {records : List TaggedRecord}
    (parsed : parseRecordStream input rounds offset = some (records, stop, true)) :
    input.drop offset = records.flatMap taggedBytes ∧
      ∀ r ∈ records, r.payload.length < 2 ^ 32 := by
  induction rounds generalizing offset records with
  | zero => cases parsed
  | succ rounds ih =>
    unfold parseRecordStream at parsed
    split at parsed
    next ended =>
      obtain ⟨rfl, -⟩ := Prod.mk.inj (Option.some.inj parsed)
      exact ⟨drop_eq_nil_of_le ended, nofun⟩
    · split at parsed
      · simp at parsed
      next record next read =>
        obtain ⟨⟨rest, stopped⟩, more, same⟩ := Option.map_eq_some_iff.mp parsed
        obtain ⟨rfl, rfl⟩ := Prod.mk.inj same
        obtain ⟨whole, fits⟩ := readTaggedRecord_reads read
        rw [whole, flatMap_cons, (ih more).1]
        exact ⟨rfl, forall_mem_cons.mpr ⟨fits, (ih more).2⟩⟩

/-- **A stream is accepted** exactly where it is its records, written one after another. -/
theorem parseRecordStream_accepts_iff (input : List UInt8) (records : List TaggedRecord) :
    parseRecordStream input (input.length + 1) 0 = some (records, input.length, true) ↔
      input = records.flatMap taggedBytes ∧ ∀ r ∈ records, r.payload.length < 2 ^ 32 := by
  refine ⟨parseRecordStream_reads, ?_⟩
  rintro ⟨rfl, fit⟩
  exact parseRecordStream_written fit [] (Nat.lt_succ_self _)

end Microide.Persistence
