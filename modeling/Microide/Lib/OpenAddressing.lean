/-
Open addressing with linear probes.

Each slot of a table is empty, or has the hash of a key and, one above it, the key's index. A
probe goes from the place of its hash on, round the table, to a slot that it looks for or the
first empty one.

**Main results.** `probe_stops`: where a slot is empty, every probe ends; `Holds.find`: at the
slot of the key, if there is one; `Holds.put`: what is put where a probe of its key ended is
held; `Holds.refill`: so is everything that a new table is filled with.
-/

import Mathlib.Algebra.Group.Nat.Defs
import Mathlib.Data.List.Basic

namespace Microide.Lib

open List

structure Slot where
  hash : Nat := 0
  indexPlusOne : Nat := 0
  deriving DecidableEq

abbrev Slot.Taken (slot : Slot) : Prop := slot.indexPlusOne ≠ 0

def slotAt (slots : List Slot) (p : Nat) : Slot := slots.getD p {}

def probeFrom (slots : List Slot) (mask : Nat) (found : Slot → Bool) : Nat → Nat → Option Nat
  | 0, _ => none
  | rounds + 1, p =>
      if ¬ (slotAt slots p).Taken ∨ found (slotAt slots p) then some p
      else probeFrom slots mask found rounds ((p + 1) &&& mask)

/-- None if the rounds of a whole table do not end. -/
def probe (slots : List Slot) (mask hash : Nat) (found : Slot → Bool) : Option Nat :=
  probeFrom slots mask found slots.length (hash &&& mask)

/-- Into the first empty slot each. -/
def refill (mask : Nat) (slots : List Slot) : List Slot → Option (List Slot)
  | [] => some slots
  | slot :: rest => (probe slots mask slot.hash fun _ => false).bind fun p =>
      refill mask (slots.set p slot) rest

/-- From the place of `hash` all slots before `p` are taken, and were `passed`. -/
def Reaches (slots : List Slot) (hash p : Nat) (passed : Slot → Prop) : Prop :=
  p < slots.length ∧ ∃ d, p = (hash + d) % slots.length ∧
    ∀ e < d, (slotAt slots ((hash + e) % slots.length)).Taken ∧
      passed (slotAt slots ((hash + e) % slots.length))

variable {slots : List Slot} {mask hash rounds d p q : Nat} {found : Slot → Bool}

theorem probeFrom_ends (found : Slot → Bool) (masked : ∀ j, j &&& mask = j % slots.length) (inside : p < slots.length)
    (room : d < rounds) (free : ¬ (slotAt slots ((p + d) % slots.length)).Taken) :
    ∃ q, probeFrom slots mask found rounds p = some q ∧ Reaches slots p q (¬ found ·) ∧
      (¬ (slotAt slots q).Taken ∨ found (slotAt slots q)) := by
  induction rounds generalizing p d with
  | zero => exact absurd room (Nat.not_lt_zero _)
  | succ rounds ih =>
    unfold probeFrom
    split
    next stop =>
      exact ⟨p, rfl, ⟨inside, 0, (Nat.mod_eq_of_lt inside).symm, by simp⟩, stop⟩
    next go =>
      rw [not_or, not_not] at go
      have next e : ((p + 1) % slots.length + e) % slots.length = (p + (e + 1)) % slots.length := by
        rw [Nat.mod_add_mod, Nat.add_assoc, Nat.add_comm 1]
      cases d with
      | zero =>
        rw [Nat.add_zero, Nat.mod_eq_of_lt inside] at free
        exact absurd go.1 free
      | succ d =>
        obtain ⟨q, ends, ⟨small, d', away, before⟩, stop⟩ := ih (d := d)
          (Nat.mod_lt (p + 1) (Nat.zero_lt_of_lt inside)) (Nat.lt_of_succ_lt_succ room)
          (by rwa [next])
        rw [masked]
        refine ⟨q, ends, ⟨small, d' + 1, away.trans (next _), fun e less => ?_⟩, stop⟩
        cases e with
        | zero => simpa [Nat.mod_eq_of_lt inside] using go
        | succ e => simpa only [next] using before e (Nat.lt_of_succ_lt_succ less)

theorem probe_stops (hash : Nat) (found : Slot → Bool)
    (masked : ∀ j, j &&& mask = j % slots.length) (inside : q < slots.length)
    (free : ¬ (slotAt slots q).Taken) :
    ∃ p, probe slots mask hash found = some p ∧ Reaches slots hash p (¬ found ·) ∧
      (¬ (slotAt slots p).Taken ∨ found (slotAt slots p)) := by
  have small := Nat.mod_lt hash (Nat.zero_lt_of_lt inside)
  obtain ⟨d, room, back⟩ : ∃ d < slots.length, (hash % slots.length + d) % slots.length = q := by
    by_cases order : hash % slots.length ≤ q
    · exact ⟨q - hash % slots.length, by omega, by
        rw [Nat.add_sub_cancel' order, Nat.mod_eq_of_lt inside]⟩
    · refine ⟨q + slots.length - hash % slots.length, by omega, ?_⟩
      rw [Nat.add_sub_cancel' (by omega), Nat.add_mod_right, Nat.mod_eq_of_lt inside]
  have ends := probeFrom_ends found masked small room (by rwa [back])
  unfold probe
  rw [masked]
  simpa only [Reaches, Nat.mod_add_mod] using ends

theorem Reaches.weaken {passed : Slot → Prop} (h : Reaches slots hash p passed) :
    Reaches slots hash p fun _ => True := by
  obtain ⟨inside, d, away, before⟩ := h
  exact ⟨inside, d, away, fun e less => ⟨(before e less).1, trivial⟩⟩

theorem slotAt_set (slot : Slot) (inside : p < slots.length) :
    slotAt (slots.set p slot) q = if q = p then slot else slotAt slots q := by
  grind [slotAt]

theorem Reaches.set {slot : Slot} (h : Reaches slots hash q fun _ => True) (inside : p < slots.length)
    (taken : slot.Taken) : Reaches (slots.set p slot) hash q fun _ => True := by
  obtain ⟨small, d, away, before⟩ := h
  simp only [Reaches, length_set, slotAt_set _ inside]
  exact ⟨small, d, away, fun e less => by split <;> grind⟩

/-! ### What a table holds -/

section Keys

variable {Key : Type} (keyAt : Nat → Option Key) (hashOf : Key → Nat)

def Slot.Keys (slot : Slot) (key : Key) : Prop :=
  slot.Taken ∧ slot.hash = hashOf key ∧ keyAt (slot.indexPlusOne - 1) = some key

/-- At most `size` slots are taken, those of `held`, each by a key of its own that a probe of it
reaches. -/
structure Holds (slots : List Slot) (mask size : Nat) (held : Slot → Prop) : Prop where
  power : ∃ k, slots.length = 2 ^ k ∧ mask = 2 ^ k - 1
  content : ∀ slot, held slot ↔ slot.Taken ∧ ∃ p, slotAt slots p = slot
  keyed : ∀ p, (slotAt slots p).Taken → ∃ key, (slotAt slots p).Keys keyAt hashOf key
  chained : ∀ p, (slotAt slots p).Taken → Reaches slots (slotAt slots p).hash p fun _ => True
  apart : ∀ p q key, (slotAt slots p).Keys keyAt hashOf key →
    (slotAt slots q).Keys keyAt hashOf key → p = q
  few : slots.countP (·.Taken) ≤ size

/-- Where `key` is, or would be put. -/
structure Place (slots : List Slot) (key : Key) (p : Nat) : Prop where
  reaches : Reaches slots (hashOf key) p fun _ => True
  own : (slotAt slots p).Taken → (slotAt slots p).Keys keyAt hashOf key
  only : ∀ q, (slotAt slots q).Keys keyAt hashOf key → q = p

variable {keyAt hashOf} {key : Key} {size : Nat} {held : Slot → Prop}

theorem Holds.masked (holds : Holds keyAt hashOf slots mask size held) (j : Nat) :
    j &&& mask = j % slots.length := by
  obtain ⟨k, length, rfl⟩ := holds.power
  rw [length, Nat.and_two_pow_sub_one_eq_mod]

theorem Holds.free (holds : Holds keyAt hashOf slots mask size held) (room : size < slots.length) :
    ∃ q < slots.length, ¬ (slotAt slots q).Taken := by
  by_contra full
  have all : slots.countP (·.Taken) = slots.length := countP_eq_length.mpr fun slot mem => by
    obtain ⟨q, inside, rfl⟩ := getElem_of_mem mem
    by_contra empty
    exact full ⟨q, inside, by simpa [slotAt, inside] using empty⟩
  exact absurd holds.few (by omega)

theorem Holds.find [DecidableEq Key] (holds : Holds keyAt hashOf slots mask size held)
    (room : size < slots.length) (key : Key) :
    ∃ p, probe slots mask (hashOf key) (fun slot => slot.hash = hashOf key ∧
        keyAt (slot.indexPlusOne - 1) = some key) = some p ∧ Place keyAt hashOf slots key p := by
  obtain ⟨q, small, free⟩ := holds.free room
  obtain ⟨p, ends, reaches, stop⟩ := probe_stops (hashOf key) (fun slot =>
    slot.hash = hashOf key ∧ keyAt (slot.indexPlusOne - 1) = some key) holds.masked small free
  have own : (slotAt slots p).Taken → (slotAt slots p).Keys keyAt hashOf key := fun taken =>
    ⟨taken, by simpa using stop.resolve_left (not_not_intro taken)⟩
  refine ⟨p, ends, reaches.weaken, own, fun q keys => ?_⟩
  obtain ⟨inside, d, away, passed⟩ := reaches
  obtain ⟨-, d', away', before⟩ := holds.chained q keys.1
  rw [keys.2.1] at away' before
  obtain less | rfl | more := Nat.lt_trichotomy d d'
  · have taken := (before d less).1
    rw [← away] at taken
    exact holds.apart q p key keys (own taken)
  · rw [away, away']
  · have other := (passed d' more).2
    rw [← away'] at other
    exact absurd (by simpa using keys.2) other

/-- No slot has the key, and one is empty. -/
theorem Place.absent (place : Place keyAt hashOf slots key p)
    (holds : Holds keyAt hashOf slots mask size held)
    (absent : ∀ slot, held slot → ¬ slot.Keys keyAt hashOf key) : ¬ (slotAt slots p).Taken :=
  fun taken => absent _ ((holds.content _).mpr ⟨taken, p, rfl⟩) (place.own taken)

theorem Place.present {slot : Slot} (place : Place keyAt hashOf slots key p)
    (holds : Holds keyAt hashOf slots mask size held) (present : held slot)
    (keys : slot.Keys keyAt hashOf key) : slotAt slots p = slot := by
  obtain ⟨-, q, rfl⟩ := (holds.content slot).mp present
  rw [place.only q keys]

theorem Holds.put {slot : Slot} (holds : Holds keyAt hashOf slots mask size held)
    (held' : Slot → Prop) (place : Place keyAt hashOf slots key p) (new : slot.Keys keyAt hashOf key)
    (after : ∀ s, held' s ↔ s = slot ∨ held s ∧ ¬ s.Keys keyAt hashOf key) :
    Holds keyAt hashOf (slots.set p slot) mask (size + 1) held' := by
  have inside := place.reaches.1
  have own q (keys : (slotAt slots q).Keys keyAt hashOf key) : q = p := place.only q keys
  constructor
  · simpa using holds.power
  · intro s
    simp only [after, holds.content, slotAt_set _ inside]
    have := place.own
    grind [new.1]
  · intro q
    rw [slotAt_set _ inside]
    split
    · exact fun _ => ⟨key, new⟩
    · exact holds.keyed q
  · intro q
    rw [slotAt_set _ inside]
    split
    next same => exact fun _ => (same ▸ new.2.1 ▸ place.reaches).set inside new.1
    next => exact fun taken => (holds.chained q taken).set inside new.1
  · intro q r other
    rw [slotAt_set _ inside, slotAt_set _ inside]
    have only q (keys : (slotAt slots q).Keys keyAt hashOf other)
        (same : slot.Keys keyAt hashOf other) : q = p := by
      obtain rfl : key = other := Option.some.inj (new.2.2.symm.trans same.2.2)
      exact place.only q keys
    grind [holds.apart]
  · have few := holds.few
    grind

/-- A table goes on holding its slots where more indices have keys. -/
theorem Holds.extend (keyAt' : Nat → Option Key) (more : ∀ i key, keyAt i = some key →
    keyAt' i = some key) (holds : Holds keyAt hashOf slots mask size held) :
    Holds keyAt' hashOf slots mask size held ∧
      ∀ key p, Place keyAt hashOf slots key p → Place keyAt' hashOf slots key p := by
  have same p key : (slotAt slots p).Keys keyAt' hashOf key ↔ (slotAt slots p).Keys keyAt hashOf key := by
    constructor
    · intro keys
      obtain ⟨old, keysOld⟩ := holds.keyed p keys.1
      obtain rfl : old = key := Option.some.inj ((more _ _ keysOld.2.2).symm.trans keys.2.2)
      exact keysOld
    · exact fun keys => ⟨keys.1, keys.2.1, more _ _ keys.2.2⟩
  refine ⟨⟨holds.power, holds.content, ?_, holds.chained, ?_, holds.few⟩, fun key p place =>
    ⟨place.reaches, ?_, ?_⟩⟩ <;> simp only [same]
  exacts [holds.keyed, holds.apart, place.own, place.only]

/-- Filled with slots of different keys that it does not hold. -/
theorem Holds.refill (rest : List Slot) (held' : Slot → Prop)
    (holds : Holds keyAt hashOf slots mask size held)
    (room : size + rest.length < slots.length)
    (keyed : ∀ slot ∈ rest, ∃ key, slot.Keys keyAt hashOf key ∧
      ∀ s, held s → ¬ s.Keys keyAt hashOf key)
    (apart : rest.Pairwise fun a b => ∀ key, a.Keys keyAt hashOf key → ¬ b.Keys keyAt hashOf key)
    (after : ∀ s, held' s ↔ held s ∨ s ∈ rest) :
    ∃ slots', Lib.refill mask slots rest = some slots' ∧ slots'.length = slots.length ∧
      Holds keyAt hashOf slots' mask (size + rest.length) held' := by
  induction rest generalizing slots size held with
  | nil =>
    obtain rfl : held' = held := by simpa using funext fun s => propext (after s)
    exact ⟨slots, rfl, rfl, holds⟩
  | cons slot rest ih =>
    rw [length_cons] at room
    obtain ⟨⟨key, keys, fresh⟩, keyed⟩ := forall_mem_cons.mp keyed
    obtain ⟨first, apart⟩ := pairwise_cons.mp apart
    obtain ⟨q, small, free⟩ := holds.free (by omega)
    obtain ⟨p, ends, reaches, stop⟩ :=
      probe_stops slot.hash (fun _ => false) holds.masked small free
    have empty : ¬ (slotAt slots p).Taken := stop.resolve_right Bool.false_ne_true
    have place : Place keyAt hashOf slots key p := ⟨keys.2.1 ▸ reaches.weaken, (absurd · empty),
      fun q other => absurd other (fresh _ ((holds.content _).mpr ⟨other.1, q, rfl⟩))⟩
    have next := holds.put (fun s => held s ∨ s = slot) place keys (by grind)
    obtain ⟨slots', filled, length, holds'⟩ := ih next (by rw [length_set]; omega)
      (fun other mem => by
        obtain ⟨key', keys', fresh'⟩ := keyed other mem
        refine ⟨key', keys', ?_⟩
        rintro s (old | rfl) same
        exacts [fresh' s old same, first other mem key' same keys'])
      apart (by grind)
    refine ⟨slots', by rw [Lib.refill, ends]; exact filled, length.trans length_set, ?_⟩
    rwa [length_cons, Nat.add_comm rest.length, ← Nat.add_assoc]

theorem holds_replicate (keyAt : Nat → Option Key) (hashOf : Key → Nat) (k : Nat) :
    Holds keyAt hashOf (replicate (2 ^ k) {}) (2 ^ k - 1) 0 fun _ => False := by
  have empty p : slotAt (replicate (2 ^ k) {}) p = {} := by grind [slotAt]
  constructor
  · exact ⟨k, length_replicate, rfl⟩
  · intro slot
    grind
  all_goals simp [empty, Slot.Keys]

/-- At most half full, or filled into a table twice as large. -/
theorem Holds.grow {rest : List Slot} (holds : Holds keyAt hashOf slots mask size held)
    (content : ∀ s, held s ↔ s ∈ rest) (few : rest.length ≤ size) (room : size ≤ slots.length)
    (apart : rest.Pairwise fun a b => ∀ key, a.Keys keyAt hashOf key → ¬ b.Keys keyAt hashOf key) :
    ∃ slots', Lib.refill (slots.length * 2 - 1) (replicate (slots.length * 2) {}) rest =
        some slots' ∧ slots'.length = slots.length * 2 ∧
      Holds keyAt hashOf slots' (slots.length * 2 - 1) size held := by
  obtain ⟨k, length, -⟩ := holds.power
  have positive := Nat.two_pow_pos k
  rw [length, ← Nat.pow_succ]
  obtain ⟨slots', filled, length', holds'⟩ :=
    (holds_replicate keyAt hashOf (k + 1)).refill rest held
      (by rw [length_replicate, Nat.pow_succ]; omega)
      (fun slot mem => by
        obtain ⟨taken, p, rfl⟩ := (holds.content slot).mp ((content slot).mpr mem)
        obtain ⟨key, keys⟩ := holds.keyed p taken
        exact ⟨key, keys, fun _ => False.elim⟩)
      apart (by simpa using content)
  rw [length_replicate] at length'
  exact ⟨slots', filled, length', { holds' with few := Nat.le_trans holds'.few (by omega) }⟩

/-- The taken slots themselves. -/
theorem Holds.taken (holds : Holds keyAt hashOf slots mask size held) :
    (∀ s, held s ↔ s ∈ slots.filter (·.Taken)) ∧ (slots.filter (·.Taken)).length ≤ size ∧
      (slots.filter (·.Taken)).Pairwise fun a b =>
        ∀ key, a.Keys keyAt hashOf key → ¬ b.Keys keyAt hashOf key := by
  refine ⟨fun s => ?_, countP_eq_length_filter ▸ holds.few,
    Pairwise.filter _ (pairwise_iff_getElem.mpr fun i j hi hj order key first second => ?_)⟩
  · rw [holds.content, mem_filter, decide_eq_true_eq]
    constructor
    · grind [slotAt]
    · rintro ⟨mem, taken⟩
      obtain ⟨p, inside, rfl⟩ := getElem_of_mem mem
      exact ⟨taken, p, by simp [slotAt, inside]⟩
  · have := holds.apart i j key (by simpa [slotAt, hi] using first) (by simpa [slotAt, hj] using second)
    omega

end Keys

end Microide.Lib
