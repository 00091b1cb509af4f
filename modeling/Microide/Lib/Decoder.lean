/-
Decoders of untrusted bytes.

A decoder reads fields from a bounds-checked reader, whose failure latches, and refuses what
a check refuses. Two judgments carry the proofs about one, each with a rule for every
combinator: `Reads`, that it answers a value on the bytes a writer wrote, whatever follows
them; `Gives`, that whatever it answers has a property.

**Main results.** `Decoder.run_of_reads`: a decoder undoes its writer;
`Decoder.gives_of_run`: what it accepts, of any bytes, has the property.
-/

import Mathlib.Data.Nat.Bitwise
import Microide.Lib.ByteCodec

namespace Microide.Lib

open List ByteReader

/-! ### Packed bits -/

/-- The number whose bits are `bits`, least significant first. -/
def packBits : List Bool → Nat
  | [] => 0
  | bit :: bits => Nat.bit bit (packBits bits)

theorem packBits_lt (bits : List Bool) : packBits bits < 2 ^ bits.length := by
  induction bits with
  | nil => exact Nat.one_pos
  | cons bit bits ih =>
    rw [packBits, length_cons, Nat.pow_succ, Nat.bit_val]
    have low := bit.toNat_lt
    omega

@[simp] theorem testBit_packBits (bits : List Bool) (place : Nat) :
    (packBits bits).testBit place = bits.getD place false := by
  induction bits generalizing place with
  | nil => simp [packBits]
  | cons bit bits ih =>
    cases place with
    | zero => simp [packBits]
    | succ place => simp [packBits, Nat.testBit_bit_succ, ih]

/-! ### Decoders -/

/-- A decode over a reader: `none` once the bytes are refused. -/
abbrev Decoder := StateT ByteReader Option

namespace Decoder

variable {α β : Type}

/-- One read of the reader, which latches its own failure. -/
def read (field : ByteReader → α × ByteReader) : Decoder α := fun reader => some (field reader)

def le (bytes : Nat) : Decoder Nat := read (·.le bytes)

def varint : Decoder Nat := read ByteReader.varint

def bytes (maxBytes : Nat) : Decoder (List UInt8) := read (·.bytes maxBytes)

def raw (count : Nat) : Decoder (List UInt8) := read (·.raw count)

/-- The bytes are refused unless `p`. -/
def check (p : Prop) [Decidable p] : Decoder Unit := if p then pure () else failure

/-- The bytes are refused where a read failed, or fewer than `count` are left. -/
def room (count : Nat) : Decoder Unit := fun reader =>
  if !reader.failed && decide (count ≤ reader.remaining) then some ((), reader) else none

/-- Read where `present`. -/
def optional (present : Bool) (decoder : Decoder α) : Decoder (Option α) :=
  if present then do
    let a ← decoder
    pure (some a)
  else pure none

/-- `count` of them, one after another. -/
def many (decoder : Decoder α) : Nat → Decoder (List α)
  | 0 => pure []
  | count + 1 => do
      let first ← decoder
      let rest ← many decoder count
      pure (first :: rest)

/-- One after another until no byte is left, in at most `steps` of them. -/
def untilEnd (decoder : Decoder α) : Nat → Decoder (List α)
  | 0 => do
      check ((← get).atEnd = true)
      pure []
  | steps + 1 => do
      if (← get).atEnd then pure []
      else do
        let first ← decoder
        let rest ← untilEnd decoder steps
        pure (first :: rest)

/-- The whole of the bytes, and nothing after. -/
def run (decoder : Decoder α) (bytes : List UInt8) : Option α :=
  match decoder ⟨bytes, false⟩ with
  | some (a, reader) => if !reader.failed && reader.atEnd then some a else none
  | none => none

/-! ### Undoing a writer -/

theorem bind_of_some {decoder : Decoder α} {reader reader' : ByteReader} {a : α}
    (answered : decoder reader = some (a, reader')) (next : α → Decoder β) :
    (decoder >>= next) reader = next a reader' := by
  change (decoder reader).bind (fun (a, reader) => next a reader) = _
  rw [answered]
  rfl

theorem of_bind {decoder : Decoder α} {next : α → Decoder β} {reader reader' : ByteReader} {b : β}
    (answered : (decoder >>= next) reader = some (b, reader')) :
    ∃ a middle, decoder reader = some (a, middle) ∧ next a middle = some (b, reader') := by
  obtain ⟨⟨a, middle⟩, before, after⟩ := Option.bind_eq_some_iff.mp answered
  exact ⟨a, middle, before, after⟩

/-- On `bytes`, whatever follows them, the decoder answers `a` and reads no further. -/
def Reads (decoder : Decoder α) (bytes : List UInt8) (a : α) : Prop :=
  ∀ rest, decoder ⟨bytes ++ rest, false⟩ = some (a, ⟨rest, false⟩)

theorem run_of_reads {decoder : Decoder α} {bytes : List UInt8} {a : α}
    (reads : Reads decoder bytes a) : decoder.run bytes = some a := by
  have read := reads []
  rw [append_nil] at read
  unfold run
  rw [read]
  rfl

theorem Reads.pure (a : α) : Reads (Pure.pure a) [] a := fun _ => rfl

theorem Reads.answers {decoder : Decoder α} {bytes : List UInt8} {a b : α}
    (reads : Reads decoder bytes a) (same : a = b) : Reads decoder bytes b := same ▸ reads

theorem Reads.bind {decoder : Decoder α} {next : α → Decoder β} {bytes more : List UInt8} {a : α}
    {b : β} (first : Reads decoder bytes a) (second : Reads (next a) more b) :
    Reads (decoder >>= next) (bytes ++ more) b := by
  intro rest
  rw [append_assoc, bind_of_some (first _)]
  exact second rest

/-- What reads nothing more only changes the answer. -/
theorem Reads.map {decoder : Decoder α} {bytes : List UInt8} {a : α} (first : Reads decoder bytes a)
    (f : α → β) : Reads (decoder >>= fun a => Pure.pure (f a)) bytes (f a) := by
  rw [← append_nil bytes]
  exact first.bind (.pure (f a))

theorem Reads.le {value count : Nat} (fits : value < 256 ^ count) :
    Reads (Decoder.le count) (putLe value count) value := by
  intro rest
  exact congrArg some (le_putLe fits rest)

theorem Reads.byte {value : Nat} (fits : value < 256) :
    Reads (Decoder.le 1) [UInt8.ofNat value] value := by
  have read : Reads (Decoder.le 1) (putLe value 1) value := .le (by simpa using fits)
  rwa [putLe, putLe, Nat.mod_eq_of_lt fits] at read

theorem Reads.varint {value : Nat} (fits : value < 2 ^ 64) :
    Reads Decoder.varint (putVarint value) value := by
  intro rest
  exact congrArg some (varint_putVarint fits rest)

theorem Reads.bytes {bytes : List UInt8} {maxBytes : Nat} (fits : bytes.length ≤ maxBytes)
    (small : maxBytes < 2 ^ 64) : Reads (Decoder.bytes maxBytes) (putBytes bytes) bytes := by
  intro rest
  exact congrArg some (bytes_putBytes fits (fits.trans_lt small) rest)

theorem Reads.raw {bytes : List UInt8} {count : Nat} (size : bytes.length = count) :
    Reads (Decoder.raw count) bytes bytes := by
  intro rest
  exact congrArg some (raw_append size rest)

/-- A check that passes reads nothing. -/
theorem Reads.check {p : Prop} [Decidable p] {next : Unit → Decoder α} {bytes : List UInt8} {a : α}
    (holds : p) (second : Reads (next ()) bytes a) : Reads (Decoder.check p >>= next) bytes a := by
  intro rest
  have passed : Decoder.check p ⟨bytes ++ rest, false⟩ = some ((), ⟨bytes ++ rest, false⟩) := by
    rw [Decoder.check, if_pos holds]
    rfl
  rw [bind_of_some passed]
  exact second rest

/-- A room check passes where what is read next is long enough. -/
theorem Reads.room {next : Unit → Decoder α} {bytes : List UInt8} {a : α} {count : Nat}
    (enough : count ≤ bytes.length) (second : Reads (next ()) bytes a) :
    Reads (Decoder.room count >>= next) bytes a := by
  intro rest
  have left : count ≤ (mk (bytes ++ rest) false).remaining := by
    rw [remaining, length_append]
    omega
  have passed : Decoder.room count ⟨bytes ++ rest, false⟩ = some ((), ⟨bytes ++ rest, false⟩) := by
    rw [Decoder.room, if_pos (by simpa using left)]
  rw [bind_of_some passed]
  exact second rest

theorem Reads.optionalMap {γ : Type} {decoder : Decoder α} (put : γ → List UInt8) (answer : γ → α)
    (value : Option γ) (each : ∀ item ∈ value, Reads decoder (put item) (answer item)) :
    Reads (Decoder.optional value.isSome decoder) (value.elim [] put) (value.map answer) := by
  cases value with
  | none => exact .pure none
  | some item => exact (each item rfl).map some

theorem Reads.optional {decoder : Decoder α} (put : α → List UInt8) (value : Option α)
    (each : ∀ a ∈ value, Reads decoder (put a) a) :
    Reads (Decoder.optional value.isSome decoder) (value.elim [] put) value :=
  (Reads.optionalMap put id value each).answers (Option.map_id_apply)

theorem Reads.many {γ : Type} {decoder : Decoder α} (put : γ → List UInt8) (answer : γ → α)
    (items : List γ) (each : ∀ item ∈ items, Reads decoder (put item) (answer item)) :
    Reads (Decoder.many decoder items.length) (items.flatMap put) (items.map answer) := by
  induction items with
  | nil => exact .pure []
  | cons item items ih =>
    have rest := ih fun other held => each other (mem_cons_of_mem _ held)
    exact (each item mem_cons_self).bind (rest.map (answer item :: ·))

theorem get_bind (next : ByteReader → Decoder β) (reader : ByteReader) :
    ((get : Decoder ByteReader) >>= next) reader = next reader reader := rfl

theorem untilEnd_more (decoder : Decoder α) (steps : Nat) {reader : ByteReader}
    (atEnd : reader.atEnd = false) : untilEnd decoder (steps + 1) reader =
      (do
        let first ← decoder
        let rest ← untilEnd decoder steps
        pure (first :: rest)) reader := by
  rw [untilEnd, get_bind, atEnd]
  rfl

/-- A batch, where every item is at least a byte. -/
theorem untilEnd_put {decoder : Decoder α} {put : α → List UInt8} {answer : α → α}
    (nonempty : ∀ a, put a ≠ []) : ∀ {items : List α} (steps : Nat), items.length ≤ steps →
      (∀ a ∈ items, Reads decoder (put a) (answer a)) →
      untilEnd decoder steps ⟨items.flatMap put, false⟩ =
        some (items.map answer, ⟨[], false⟩) := by
  intro items
  induction items with
  | nil =>
    intro steps _ _
    cases steps <;> rfl
  | cons a items ih =>
    intro steps room each
    obtain ⟨steps, rfl⟩ := Nat.exists_eq_succ_of_ne_zero (Nat.ne_of_gt (Nat.zero_lt_of_lt room))
    have more : (mk ((a :: items).flatMap put) false).atEnd = false := by
      simp [atEnd, nonempty a]
    have rest := ih steps (by simpa using room) fun b held =>
      each b (mem_cons_of_mem _ held)
    rw [untilEnd_more decoder _ more, flatMap_cons, bind_of_some (each a mem_cons_self _), bind_of_some rest]
    rfl

/-! ### What any answer has -/

/-- Whatever the decoder answers has `P`. -/
def Gives (decoder : Decoder α) (P : α → Prop) : Prop :=
  ∀ ⦃reader a reader'⦄, decoder reader = some (a, reader') → P a

theorem gives_of_run {decoder : Decoder α} {P : α → Prop} (gives : Gives decoder P)
    {bytes : List UInt8} {a : α} (accepted : decoder.run bytes = some a) : P a := by
  unfold run at accepted
  split at accepted
  next b reader answered =>
    split at accepted
    · obtain rfl := Option.some.inj accepted
      exact gives answered
    · cases accepted
  · cases accepted

theorem Gives.pure {P : α → Prop} {a : α} (holds : P a) : Gives (Pure.pure a) P := by
  rintro reader _ _ ⟨⟩
  exact holds

theorem Gives.bind {decoder : Decoder α} {next : α → Decoder β} {P : α → Prop} {Q : β → Prop}
    (first : Gives decoder P) (second : ∀ a, P a → Gives (next a) Q) :
    Gives (decoder >>= next) Q := by
  intro reader b reader' answered
  obtain ⟨a, middle, before, after⟩ := of_bind answered
  exact second a (first before) after

theorem Gives.trivial (decoder : Decoder α) : Gives decoder fun _ => True := fun _ _ _ _ => ⟨⟩

/-- What one read answers is what the reader answers. -/
theorem Gives.read {field : ByteReader → α × ByteReader} {P : α → Prop}
    (each : ∀ reader, P (field reader).1) : Gives (Decoder.read field) P := by
  intro reader a reader' answered
  obtain rfl : (field reader).1 = a := congrArg Prod.fst (Option.some.inj answered)
  exact each reader

theorem Gives.varint : Gives Decoder.varint (· < 2 ^ 64) := .read varint_lt

theorem Gives.bytes (maxBytes : Nat) : Gives (Decoder.bytes maxBytes) (·.length ≤ maxBytes) :=
  .read fun reader => length_bytes_le reader maxBytes

theorem check_answered {p : Prop} [Decidable p] {reader reader' : ByteReader} {a : Unit}
    (answered : Decoder.check p reader = some (a, reader')) : p ∧ reader = reader' := by
  by_cases holds : p
  · rw [Decoder.check, if_pos holds] at answered
    exact ⟨holds, congrArg Prod.snd (Option.some.inj answered)⟩
  · rw [Decoder.check, if_neg holds] at answered
    cases answered

theorem Gives.check {p : Prop} [Decidable p] : Gives (Decoder.check p) fun _ => p := by
  intro reader _ reader' answered
  exact (check_answered answered).1

theorem Gives.optional {decoder : Decoder α} {P : α → Prop} (each : Gives decoder P)
    (present : Bool) : Gives (Decoder.optional present decoder) fun value => ∀ a ∈ value, P a := by
  cases present with
  | false => exact .pure (by simp)
  | true => exact each.bind fun a holds => .pure (by simpa using holds)

theorem Gives.many {decoder : Decoder α} {P : α → Prop} (each : Gives decoder P) (count : Nat) :
    Gives (Decoder.many decoder count) fun items => items.length = count ∧ ∀ a ∈ items, P a := by
  induction count with
  | zero => exact .pure (by simp)
  | succ count ih =>
    refine each.bind fun a holds => ih.bind fun items ⟨size, all⟩ => .pure ⟨by simp [size], ?_⟩
    rintro b (_ | ⟨_, held⟩)
    · exact holds
    · exact all b held

theorem Gives.untilEnd {decoder : Decoder α} {P : α → Prop} (each : Gives decoder P) (steps : Nat) :
    Gives (Decoder.untilEnd decoder steps) fun items => ∀ a ∈ items, P a := by
  induction steps with
  | zero => exact (Gives.trivial _).bind fun _ _ => (Gives.trivial _).bind fun _ _ => .pure (by simp)
  | succ steps ih =>
    refine (Gives.trivial _).bind fun reader _ => ?_
    split
    · exact .pure (by simp)
    · refine each.bind fun a holds => ih.bind fun items all => .pure ?_
      rintro b (_ | ⟨_, held⟩)
      · exact holds
      · exact all b held

end Decoder

end Microide.Lib
