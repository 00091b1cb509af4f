/-
Fixed-width and varint byte codecs.

Little-endian numbers in a given number of bytes, LEB128 varints, length-prefixed byte
strings, and the bounds-checked reader over untrusted bytes: a read past the end latches a
failure, and every read after it returns zero or nothing.

**Main results.** `getLe_putLe`: what was put is what is got; `le_putLe`,
`varint_putVarint`, `bytes_putBytes`: a read undoes the write, whatever follows the written
bytes; `varint_lt`, `length_bytes_le`: what any read answers.
-/

import Mathlib.Tactic.Ring.RingNF

namespace Microide.Lib

open List UInt8

/-- Where nothing is written as no bytes, many are written as at least as many bytes. -/
theorem length_le_flatMap {α β : Type} {put : α → List β} (nonempty : ∀ a, 0 < (put a).length)
    (items : List α) : items.length ≤ (items.flatMap put).length := by
  induction items with
  | nil => exact Nat.zero_le _
  | cons a items ih =>
    have first := nonempty a
    rw [length_cons, flatMap_cons, length_append]
    omega

/-! ### Little-endian numbers -/

/-- `value` in `bytes` bytes, least significant first. -/
def putLe (value : Nat) : Nat → List UInt8
  | 0 => []
  | bytes + 1 => UInt8.ofNat (value % 256) :: putLe (value / 256) bytes

def getLe : List UInt8 → Nat
  | [] => 0
  | b :: rest => b.toNat + 256 * getLe rest

@[simp] theorem length_putLe (value bytes : Nat) : (putLe value bytes).length = bytes := by
  induction bytes generalizing value with
  | zero => rfl
  | succ bytes ih => simp [putLe, ih]

variable {value : Nat}

/-- What was put is what is got, where it fits. -/
theorem getLe_putLe {bytes : Nat} (fits : value < 256 ^ bytes) :
    getLe (putLe value bytes) = value := by
  induction bytes generalizing value with
  | zero =>
    have zero : value = 0 := by simpa using fits
    simp [putLe, getLe, zero]
  | succ bytes ih =>
    have high : value / 256 < 256 ^ bytes := by
      rw [Nat.div_lt_iff_lt_mul (by decide)]
      rwa [Nat.pow_succ] at fits
    rw [putLe, getLe, ih high, toNat_ofNat']
    omega

theorem getLe_lt (bytes : List UInt8) : getLe bytes < 256 ^ bytes.length := by
  induction bytes with
  | nil => simp [getLe]
  | cons b rest ih =>
    have low := b.toNat_lt
    rw [getLe, length_cons, Nat.pow_succ]
    omega

/-- What was got, put back in as many bytes. -/
theorem putLe_getLe (bytes : List UInt8) : putLe (getLe bytes) bytes.length = bytes := by
  induction bytes with
  | nil => rfl
  | cons b rest ih =>
    have low := b.toNat_lt
    have lowByte : (b.toNat + 256 * getLe rest) % 256 = b.toNat := by omega
    have high : (b.toNat + 256 * getLe rest) / 256 = getLe rest := by omega
    rw [getLe, length_cons, putLe, lowByte, high, ih, UInt8.ofNat_toNat]

/-! ### Varints -/

/-- Seven bits at a time, least significant first; `more` bytes may follow the next. -/
def putVarintWithin : Nat → Nat → List UInt8
  | 0, value => [UInt8.ofNat value]
  | more + 1, value =>
      if value < 128 then [UInt8.ofNat value]
      else UInt8.ofNat (value % 128 + 128) :: putVarintWithin more (value / 128)

/-- A 64-bit number takes at most ten bytes. -/
def putVarint (value : Nat) : List UInt8 := putVarintWithin 9 value

def putBytes (bytes : List UInt8) : List UInt8 := putVarint bytes.length ++ bytes

theorem length_putVarint_pos (value : Nat) : 0 < (putVarint value).length := by
  unfold putVarint putVarintWithin
  split <;> simp

/-! ### The reader -/

/-- The bytes not read yet, and whether a read failed. -/
structure ByteReader where
  rest : List UInt8
  failed : Bool := false

namespace ByteReader

def le (reader : ByteReader) (bytes : Nat) : Nat × ByteReader :=
  if reader.failed || reader.rest.length < bytes then (0, { reader with failed := true })
  else (getLe (reader.rest.take bytes), { reader with rest := reader.rest.drop bytes })

/-- At most `bytes` more bytes, whose bits start at `shift`; the bits read so far are in
`value`, and those past the 64th are dropped. -/
def varintFrom : Nat → Nat → Nat → ByteReader → Nat × ByteReader
  | 0, _, _, reader => (0, { reader with failed := true })
  | bytes + 1, shift, value, reader =>
      if reader.failed then (0, reader)
      else
        match reader.rest with
        | [] => (0, { reader with failed := true })
        | byte :: rest =>
            let value := value + byte.toNat % 128 * 2 ^ shift % 2 ^ 64
            if byte < 128 then (value, { reader with rest })
            else varintFrom bytes (shift + 7) value { reader with rest }

def varint (reader : ByteReader) : Nat × ByteReader := varintFrom 10 0 0 reader

/-- Exactly `count` bytes. -/
def raw (reader : ByteReader) (count : Nat) : List UInt8 × ByteReader :=
  if reader.failed || reader.rest.length < count then ([], { reader with failed := true })
  else (reader.rest.take count, { reader with rest := reader.rest.drop count })

/-- A varint length, at most `maxBytes`, and that many bytes. -/
def bytes (reader : ByteReader) (maxBytes : Nat) : List UInt8 × ByteReader :=
  let (size, reader) := reader.varint
  if reader.failed || maxBytes < size || reader.rest.length < size then
    ([], { reader with failed := true })
  else (reader.rest.take size, { reader with rest := reader.rest.drop size })

def atEnd (reader : ByteReader) : Bool := reader.rest.isEmpty

def remaining (reader : ByteReader) : Nat := reader.rest.length

/-! ### Reading what was written -/

@[simp] theorem le_putLe {count : Nat} (fits : value < 256 ^ count) (rest : List UInt8) :
    le ⟨putLe value count ++ rest, false⟩ count = (value, ⟨rest, false⟩) := by
  have taken : (putLe value count ++ rest).take count = putLe value count :=
    take_left' (length_putLe _ _)
  simp [le, taken, getLe_putLe fits]

@[simp] theorem raw_append {bytes : List UInt8} {count : Nat} (size : bytes.length = count)
    (rest : List UInt8) : raw ⟨bytes ++ rest, false⟩ count = (bytes, ⟨rest, false⟩) := by
  simp [raw, ← size]

/-- The last byte of a varint. -/
theorem varintFrom_last {bytes shift before : Nat} (rest : List UInt8) (small : value < 128)
    (fits : before + value * 2 ^ shift < 2 ^ 64) :
    varintFrom (bytes + 1) shift before ⟨ofNat value :: rest, false⟩ =
      (before + value * 2 ^ shift, ⟨rest, false⟩) := by
  have byte : (ofNat value).toNat = value := by
    rw [toNat_ofNat']
    omega
  have isLast : ofNat value < 128 := by
    rw [lt_iff_toNat_lt, byte]
    exact small
  have bits : value % 128 * 2 ^ shift % 2 ^ 64 = value * 2 ^ shift := by
    rw [Nat.mod_eq_of_lt small, Nat.mod_eq_of_lt (by omega)]
  simp only [varintFrom, byte, bits, isLast]
  rfl

/-- A byte of a varint that is not the last. -/
theorem varintFrom_more {bytes shift before : Nat} (rest : List UInt8)
    (fits : value % 128 * 2 ^ shift < 2 ^ 64) :
    varintFrom (bytes + 1) shift before ⟨ofNat (value % 128 + 128) :: rest, false⟩ =
      varintFrom bytes (shift + 7) (before + value % 128 * 2 ^ shift) ⟨rest, false⟩ := by
  have byte : (ofNat (value % 128 + 128)).toNat = value % 128 + 128 := by
    rw [toNat_ofNat']
    omega
  have notLast : ¬ ofNat (value % 128 + 128) < 128 := by
    rw [lt_iff_toNat_lt, byte]
    simp
  have bits : (value % 128 + 128) % 128 * 2 ^ shift % 2 ^ 64 = value % 128 * 2 ^ shift := by
    rw [Nat.add_mod_right, Nat.mod_mod, Nat.mod_eq_of_lt fits]
  simp only [varintFrom, byte, bits, notLast]
  rfl

theorem varintFrom_putVarintWithin (more : Nat) :
    ∀ {value bytes shift before : Nat} (rest : List UInt8), value < 128 ^ (more + 1) →
      more < bytes → before + value * 2 ^ shift < 2 ^ 64 →
      varintFrom bytes shift before ⟨putVarintWithin more value ++ rest, false⟩ =
        (before + value * 2 ^ shift, ⟨rest, false⟩) := by
  induction more with
  | zero =>
    intro value bytes shift before rest small room fits
    obtain ⟨bytes, rfl⟩ := Nat.exists_eq_succ_of_ne_zero (Nat.ne_of_gt room)
    exact varintFrom_last rest (by simpa using small) fits
  | succ more ih =>
    intro value bytes shift before rest small room fits
    obtain ⟨bytes, rfl⟩ := Nat.exists_eq_succ_of_ne_zero (Nat.ne_of_gt (Nat.zero_lt_of_lt room))
    by_cases last : value < 128
    · rw [putVarintWithin, if_pos last]
      exact varintFrom_last rest last fits
    · have high : value / 128 < 128 ^ (more + 1) := by
        rw [Nat.div_lt_iff_lt_mul (by decide)]
        rwa [Nat.pow_succ] at small
      have split : value * 2 ^ shift =
          value % 128 * 2 ^ shift + value / 128 * 2 ^ (shift + 7) := by
        calc value * 2 ^ shift = (value % 128 + 128 * (value / 128)) * 2 ^ shift := by
              rw [Nat.mod_add_div]
          _ = value % 128 * 2 ^ shift + value / 128 * 2 ^ (shift + 7) := by
              ring
      rw [putVarintWithin, if_neg last, cons_append, varintFrom_more _ (by omega),
        ih rest high (by omega) (by omega), split]
      simp [Nat.add_assoc]

@[simp] theorem varint_putVarint (fits : value < 2 ^ 64) (rest : List UInt8) :
    varint ⟨putVarint value ++ rest, false⟩ = (value, ⟨rest, false⟩) := by
  have small : value < 128 ^ (9 + 1) := fits.trans (by decide)
  have read : varintFrom 10 0 0 ⟨putVarintWithin 9 value ++ rest, false⟩ =
      (0 + value * 2 ^ 0, ⟨rest, false⟩) :=
    varintFrom_putVarintWithin 9 rest small (by decide) (by simpa using fits)
  simpa [varint, putVarint] using read

@[simp] theorem bytes_putBytes {bytes : List UInt8} {maxBytes : Nat}
    (fits : bytes.length ≤ maxBytes) (small : bytes.length < 2 ^ 64) (rest : List UInt8) :
    ByteReader.bytes ⟨putBytes bytes ++ rest, false⟩ maxBytes = (bytes, ⟨rest, false⟩) := by
  simp [ByteReader.bytes, putBytes, varint_putVarint small, Nat.not_lt.mpr fits]

/-! ### More bytes change no read that did not fail -/

theorem varintFrom_append (more : List UInt8) (bytes : Nat) : ∀ {shift value : Nat}
    {rest : List UInt8}, (varintFrom bytes shift value ⟨rest, false⟩).2.failed = false →
      varintFrom bytes shift value ⟨rest ++ more, false⟩ =
        ((varintFrom bytes shift value ⟨rest, false⟩).1,
          ⟨(varintFrom bytes shift value ⟨rest, false⟩).2.rest ++ more, false⟩) := by
  induction bytes with
  | zero => intro shift value rest fine; cases fine
  | succ bytes ih =>
    intro shift value rest fine
    cases rest with
    | nil => cases fine
    | cons byte rest =>
      simp only [varintFrom, cons_append, Bool.false_eq_true, if_false] at fine ⊢
      split
      · rfl
      next another =>
        rw [if_neg another] at fine
        exact ih fine

theorem bytes_append_of_fine (more : List UInt8) {maxBytes : Nat} {rest : List UInt8}
    (fine : (bytes ⟨rest, false⟩ maxBytes).2.failed = false) :
    bytes ⟨rest ++ more, false⟩ maxBytes =
      ((bytes ⟨rest, false⟩ maxBytes).1,
        ⟨(bytes ⟨rest, false⟩ maxBytes).2.rest ++ more, false⟩) := by
  obtain ⟨size, reader, read⟩ : ∃ size reader, varint ⟨rest, false⟩ = (size, reader) := ⟨_, _, rfl⟩
  cases failed : reader.failed with
  | true => simp [bytes, read, failed] at fine
  | false =>
    have sizeFine : (varint ⟨rest, false⟩).2.failed = false := by rw [read, failed]
    have longer := varintFrom_append more 10 sizeFine
    change varint _ = ((varint _).1, ⟨(varint _).2.rest ++ more, false⟩) at longer
    by_cases refused : maxBytes < size ∨ reader.rest.length < size
    · simp [bytes, read, failed, refused] at fine
    · obtain ⟨fits, within⟩ : size ≤ maxBytes ∧ size ≤ reader.rest.length := by omega
      have long : ¬ reader.rest.length + more.length < size := by omega
      simp [bytes, read, longer, failed, Nat.not_lt.mpr fits, Nat.not_lt.mpr within, long,
        take_append_of_le_length within, drop_append_of_le_length within]

/-! ### What any read answers -/

theorem length_bytes_le (reader : ByteReader) (maxBytes : Nat) :
    (reader.bytes maxBytes).1.length ≤ maxBytes := by
  unfold bytes
  dsimp only
  split
  · exact Nat.zero_le _
  next inside =>
    simp only [Bool.or_eq_true, decide_eq_true_eq, not_or, Nat.not_lt] at inside
    exact (length_take_le _ _).trans inside.1.2

/-- The bits of one byte keep the value below the next byte's, and inside 64 bits. -/
theorem add_bits_lt {shift : Nat} (byte : Nat) (before : value < 2 ^ shift) (room : shift ≤ 63) :
    value + byte % 128 * 2 ^ shift % 2 ^ 64 < 2 ^ 64 ∧
      value + byte % 128 * 2 ^ shift % 2 ^ 64 < 2 ^ (shift + 7) := by
  have low : byte % 128 < 128 := Nat.mod_lt _ (by decide)
  have pow : 2 ^ 64 = 2 ^ (64 - shift) * 2 ^ shift := by
    rw [← pow_add]
    congr 1
    omega
  have kept : byte % 128 * 2 ^ shift % 2 ^ 64 = byte % 128 % 2 ^ (64 - shift) * 2 ^ shift := by
    rw [pow, Nat.mul_mod_mul_right]
  constructor
  · have top : (byte % 128 % 2 ^ (64 - shift) + 1) * 2 ^ shift ≤ 2 ^ (64 - shift) * 2 ^ shift :=
      Nat.mul_le_mul_right _ (Nat.mod_lt _ (Nat.two_pow_pos _))
    rw [Nat.add_mul, Nat.one_mul, ← pow] at top
    omega
  · have top : (byte % 128 + 1) * 2 ^ shift ≤ 128 * 2 ^ shift := Nat.mul_le_mul_right _ low
    rw [Nat.add_mul, Nat.one_mul] at top
    rw [pow_add]
    omega

theorem varintFrom_lt (bytes : Nat) : ∀ {shift value : Nat} {reader : ByteReader},
    shift + 7 * bytes = 70 → value < 2 ^ shift →
      (varintFrom bytes shift value reader).1 < 2 ^ 64 := by
  induction bytes with
  | zero => intros; exact Nat.two_pow_pos 64
  | succ bytes ih =>
    intro shift value reader place before
    unfold varintFrom
    split
    · exact Nat.two_pow_pos 64
    · split
      · exact Nat.two_pow_pos 64
      next byte rest _ =>
        obtain ⟨inside, below⟩ := add_bits_lt byte.toNat before (by omega)
        split
        · exact inside
        · exact ih (by omega) below

theorem varint_lt (reader : ByteReader) : reader.varint.1 < 2 ^ 64 :=
  varintFrom_lt 10 rfl (Nat.one_pos)

end ByteReader

end Microide.Lib
