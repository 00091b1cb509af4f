/-
Flat deduplication.

`FlatDedupSet` owns its keys, in a vector in the order they came in, and `FlatKeyIndex` reads
them where the caller has them. Both look a key up in a probe table at most half full, which
doubles when an insertion fills it further.

**Main results.** `FlatDedupSet.run_sound`, `FlatKeyIndex.record_sound`: every probe of a run
ends; `flatDedup_refines`: the set is the list of first occurrences, and the index answers what
was recorded last.
-/

import Mathlib.Data.Bool.Basic
import Mathlib.Data.List.Nodup
import Microide.Lib.OpenAddressing

namespace Microide.Util

open List Lib

/-- The loop of `TableSizeFor`. -/
def sizeFrom (target : Nat) : Nat → Nat → Nat
  | 0, size => size
  | rounds + 1, size => if size < target then sizeFrom target rounds (size * 2) else size

def tableSizeFor (maxElements : Nat) : Nat := sizeFrom (maxElements * 2) maxElements 8

/-- The rounds are enough. -/
theorem tableSizeFor_spec (maxElements : Nat) :
    maxElements * 2 ≤ tableSizeFor maxElements ∧ ∃ k, tableSizeFor maxElements = 2 ^ k := by
  suffices loop : ∀ rounds j, maxElements * 2 ≤ 2 ^ (j + rounds) →
      maxElements * 2 ≤ sizeFrom (maxElements * 2) rounds (2 ^ j) ∧
        ∃ k, sizeFrom (maxElements * 2) rounds (2 ^ j) = 2 ^ k from
    loop maxElements 3 (by have := @Nat.lt_two_pow_self maxElements; rw [Nat.pow_add]; omega)
  intro rounds
  induction rounds with
  | zero => exact fun j enough => ⟨enough, j, rfl⟩
  | succ rounds ih =>
    intro j enough
    unfold sizeFrom
    split
    · exact ih (j + 1) (by rwa [Nat.add_right_comm])
    · exact ⟨by omega, j, rfl⟩

/-! ### The set -/

structure FlatDedupSet (Key : Type) where
  slots : List Slot
  keys : List Key
  mask : Nat

variable {Key : Type} (hashOf : Key → Nat)

namespace FlatDedupSet

def slotsOf (keys : List Key) : List Slot := keys.mapIdx fun i key => ⟨hashOf key, i + 1⟩

def resize (set : FlatDedupSet Key) (tableSize : Nat) : Option (FlatDedupSet Key) :=
  (refill (tableSize - 1) (replicate tableSize {}) (slotsOf hashOf set.keys)).map fun slots =>
    { set with slots, mask := tableSize - 1 }

/-- The constructor. -/
def make (maxElements : Nat) : Option (FlatDedupSet Key) :=
  resize hashOf ⟨[], [], 0⟩ (tableSizeFor maxElements)

def reset (maxElements : Nat) : FlatDedupSet Key :=
  ⟨replicate (tableSizeFor maxElements) {}, [], tableSizeFor maxElements - 1⟩

def occupy (set : FlatDedupSet Key) (slot : Nat) (key : Key) : Option (FlatDedupSet Key) :=
  let keys := set.keys ++ [key]
  let slots := set.slots.set slot ⟨hashOf key, keys.length⟩
  if slots.length < keys.length * 2 then resize hashOf ⟨slots, keys, set.mask⟩ (slots.length * 2)
  else some ⟨slots, keys, set.mask⟩

section Calls

variable [DecidableEq Key]

def probe (set : FlatDedupSet Key) (key : Key) : Option Nat :=
  Lib.probe set.slots set.mask (hashOf key) fun slot =>
    slot.hash = hashOf key ∧ set.keys[slot.indexPlusOne - 1]? = some key

def insert (set : FlatDedupSet Key) (key : Key) : Option (Bool × FlatDedupSet Key) :=
  (set.probe hashOf key).bind fun slot =>
    if (slotAt set.slots slot).Taken then some (false, set)
    else (set.occupy hashOf slot key).map (true, ·)

def intern (set : FlatDedupSet Key) (key : Key) : Option (Nat × FlatDedupSet Key) :=
  (set.probe hashOf key).bind fun slot =>
    if (slotAt set.slots slot).Taken then some ((slotAt set.slots slot).indexPlusOne - 1, set)
    else (set.occupy hashOf slot key).map (set.keys.length, ·)

def contains (set : FlatDedupSet Key) (key : Key) : Option Bool :=
  (set.probe hashOf key).map fun slot => decide (slotAt set.slots slot).Taken

inductive Call (Key : Type) where
  | insert (key : Key)
  | intern (key : Key)
  | reset (maxElements : Nat)

/-- The last call first. -/
def run (maxElements : Nat) : List (Call Key) → Option (FlatDedupSet Key)
  | [] => make hashOf maxElements
  | .insert key :: before =>
      (run maxElements before).bind fun set => (set.insert hashOf key).map (·.2)
  | .intern key :: before =>
      (run maxElements before).bind fun set => (set.intern hashOf key).map (·.2)
  | .reset maxElements' :: before => (run maxElements before).map fun _ => reset maxElements'

/-- The distinct keys since the last reset, by first occurrence. -/
def seen : List (Call Key) → List Key
  | [] => []
  | .insert key :: before | .intern key :: before =>
      if key ∈ seen before then seen before else seen before ++ [key]
  | .reset _ :: _ => []

end Calls

structure Sound (set : FlatDedupSet Key) : Prop where
  holds : Holds (set.keys[·]?) hashOf set.slots set.mask set.keys.length
    (· ∈ slotsOf hashOf set.keys)
  distinct : set.keys.Nodup
  half : set.keys.length * 2 ≤ set.slots.length

variable {hashOf} {set : FlatDedupSet Key} {key : Key}

theorem mem_slotsOf {keys : List Key} {slot : Slot} : slot ∈ slotsOf hashOf keys ↔
    ∃ i key, keys[i]? = some key ∧ slot = ⟨hashOf key, i + 1⟩ := by
  grind [slotsOf]

theorem slotsOf_apart {keys : List Key} (distinct : keys.Nodup) :
    (slotsOf hashOf keys).Pairwise fun a b =>
      ∀ key, a.Keys (keys[·]?) hashOf key → ¬ b.Keys (keys[·]?) hashOf key := by
  rw [pairwise_iff_getElem]
  rintro i j hi hj order key ⟨-, -, atI⟩ ⟨-, -, atJ⟩
  simp only [slotsOf, getElem_mapIdx, length_mapIdx] at hj atI atJ
  exact nodup_iff_getElem?_ne_getElem?.mp distinct i j order hj (atI.trans atJ.symm)

theorem Sound.room (sound : set.Sound hashOf) : set.keys.length < set.slots.length := by
  obtain ⟨k, length, -⟩ := sound.holds.power
  have half := sound.half
  have positive := Nat.two_pow_pos k
  omega

theorem reset_sound (maxElements : Nat) : (reset maxElements : FlatDedupSet Key).Sound hashOf := by
  obtain ⟨-, k, size⟩ := tableSizeFor_spec maxElements
  unfold reset
  rw [size]
  exact ⟨by simpa [slotsOf] using holds_replicate _ _ k, nodup_nil, Nat.zero_le _⟩

theorem Sound.occupy {p : Nat} (sound : set.Sound hashOf) (new : key ∉ set.keys)
    (place : Place (set.keys[·]?) hashOf set.slots key p) :
    ∃ set', set.occupy hashOf p key = some set' ∧ set'.keys = set.keys ++ [key] ∧
      set'.Sound hashOf := by
  have room := sound.room
  have distinct : (set.keys ++ [key]).Nodup := by
    grind [sound.distinct]
  obtain ⟨holds, places⟩ := sound.holds.extend ((set.keys ++ [key])[·]?)
    fun i other place => by grind
  have put := @Holds.put _ _ _ _ _ _ _ _ _ ⟨hashOf key, set.keys.length + 1⟩ holds
    (· ∈ slotsOf hashOf (set.keys ++ [key])) (places key p place) ⟨by simp, rfl, by simp⟩ fun s => by
      have before : s ∈ slotsOf hashOf set.keys →
          ¬ s.Keys ((set.keys ++ [key])[·]?) hashOf key := fun mem keys => by
        obtain ⟨i, other, place, rfl⟩ := mem_slotsOf.mp mem
        have := keys.2.2
        grind
      have appended : slotsOf hashOf (set.keys ++ [key]) =
          slotsOf hashOf set.keys ++ [⟨hashOf key, set.keys.length + 1⟩] := by
        simp [slotsOf]
      grind
  unfold FlatDedupSet.occupy
  simp only [length_append, length_singleton]
  split
  next full =>
    obtain ⟨slots, filled, length, holds⟩ := put.grow (fun _ => Iff.rfl) (by simp [slotsOf])
      (by rw [length_set]; omega) (slotsOf_apart distinct)
    exact ⟨_, by rw [resize, filled]; rfl, rfl, by simpa using holds, distinct, by
      simp [length] at full ⊢
      omega⟩
  next half => exact ⟨_, rfl, rfl, by simpa using put, distinct, by simpa using half⟩

variable [DecidableEq Key]

theorem Sound.probe (sound : set.Sound hashOf) (key : Key) :
    ∃ p, set.probe hashOf key = some p ∧ Place (set.keys[·]?) hashOf set.slots key p ∧
      (slotAt set.slots p).indexPlusOne = if key ∈ set.keys then set.keys.idxOf key + 1 else 0 := by
  obtain ⟨p, ends, place⟩ := sound.holds.find sound.room key
  refine ⟨p, ends, place, ?_⟩
  split
  next mem =>
    have here : set.keys[set.keys.idxOf key]? = some key := getElem?_idxOf mem
    rw [place.present sound.holds (mem_slotsOf.mpr ⟨_, _, here, rfl⟩) ⟨by simp, rfl, here⟩]
  next absent =>
    exact not_not.mp (place.absent sound.holds fun slot mem keys =>
      absent (mem_of_getElem? keys.2.2))

theorem Sound.insert (sound : set.Sound hashOf) (key : Key) :
    ∃ set', set.insert hashOf key = some (decide (key ∉ set.keys), set') ∧ set'.Sound hashOf ∧
      set'.keys = if key ∈ set.keys then set.keys else set.keys ++ [key] := by
  obtain ⟨p, ends, place, read⟩ := sound.probe key
  unfold FlatDedupSet.insert
  by_cases mem : key ∈ set.keys
  · exact ⟨set, by simp [ends, read, mem], sound, by simp [mem]⟩
  · obtain ⟨set', occupied, keys, sound'⟩ := sound.occupy mem place
    exact ⟨set', by simp [ends, read, mem, occupied], sound', by simp [mem, keys]⟩

theorem Sound.intern (sound : set.Sound hashOf) (key : Key) :
    ∃ set', set.intern hashOf key = some (set.keys.idxOf key, set') ∧ set'.Sound hashOf ∧
      set'.keys = if key ∈ set.keys then set.keys else set.keys ++ [key] := by
  obtain ⟨p, ends, place, read⟩ := sound.probe key
  unfold FlatDedupSet.intern
  by_cases mem : key ∈ set.keys
  · exact ⟨set, by simp [ends, read, mem], sound, by simp [mem]⟩
  · obtain ⟨set', occupied, keys, sound'⟩ := sound.occupy mem place
    exact ⟨set', by simp [ends, read, mem, occupied], sound', by simp [mem, keys]⟩

theorem run_sound (hashOf : Key → Nat) (maxElements : Nat) (calls : List (Call Key)) :
    ∃ set, run hashOf maxElements calls = some set ∧ set.keys = seen calls ∧ set.Sound hashOf := by
  induction calls with
  | nil => exact ⟨reset maxElements, rfl, rfl, reset_sound maxElements⟩
  | cons call before ih =>
    obtain ⟨set, ran, keys, sound⟩ := ih
    cases call with
    | insert key =>
      obtain ⟨set', inserted, sound', keys'⟩ := sound.insert key
      exact ⟨set', by rw [run, ran]; simp [inserted], by rw [keys', keys, seen], sound'⟩
    | intern key =>
      obtain ⟨set', interned, sound', keys'⟩ := sound.intern key
      exact ⟨set', by rw [run, ran]; simp [interned], by rw [keys', keys, seen], sound'⟩
    | reset maxElements' => exact ⟨_, by rw [run, ran]; rfl, rfl, reset_sound maxElements'⟩

end FlatDedupSet

/-! ### The index -/

/-- `kFlatKeyNotFound`. -/
def kFlatKeyNotFound : Nat := 2 ^ 64 - 1

structure FlatKeyIndex where
  slots : List Slot
  mask : Nat
  size : Nat

namespace FlatKeyIndex

def resize (index : FlatKeyIndex) (tableSize : Nat) : Option FlatKeyIndex :=
  (refill (tableSize - 1) (replicate tableSize {}) (index.slots.filter (·.Taken))).map fun slots =>
    { index with slots, mask := tableSize - 1 }

/-- The constructor. -/
def make (expectedElements : Nat) : Option FlatKeyIndex :=
  resize ⟨[], 0, 0⟩ (tableSizeFor expectedElements)

variable [DecidableEq Key] (keyOf : Nat → Key)

def probe (index : FlatKeyIndex) (key : Key) : Option Nat :=
  Lib.probe index.slots index.mask (hashOf key) fun slot =>
    slot.hash = hashOf key ∧ some (keyOf (slot.indexPlusOne - 1)) = some key

def find (index : FlatKeyIndex) (key : Key) : Option Nat :=
  (index.probe hashOf keyOf key).map fun slot =>
    if (slotAt index.slots slot).Taken then (slotAt index.slots slot).indexPlusOne - 1
    else kFlatKeyNotFound

def insert (index : FlatKeyIndex) (i : Nat) : Option FlatKeyIndex :=
  (index.probe hashOf keyOf (keyOf i)).bind fun slot =>
    let slots := index.slots.set slot ⟨hashOf (keyOf i), i + 1⟩
    if slots.length < (index.size + 1) * 2 then
      resize ⟨slots, index.mask, index.size + 1⟩ (slots.length * 2)
    else some ⟨slots, index.mask, index.size + 1⟩

/-- The last index first. -/
def record (expectedElements : Nat) : List Nat → Option FlatKeyIndex
  | [] => make expectedElements
  | i :: before => (record expectedElements before).bind fun index => index.insert hashOf keyOf i

structure Sound (indices : List Nat) (index : FlatKeyIndex) : Prop where
  holds : Holds (some <| keyOf ·) hashOf index.slots index.mask index.size fun slot =>
    ∃ key i, indices.find? (keyOf · = key) = some i ∧ slot = ⟨hashOf key, i + 1⟩
  half : index.size * 2 ≤ index.slots.length

variable {hashOf keyOf} {index : FlatKeyIndex} {indices : List Nat}

theorem Sound.room (sound : index.Sound hashOf keyOf indices) : index.size < index.slots.length := by
  obtain ⟨k, length, -⟩ := sound.holds.power
  have half := sound.half
  have positive := Nat.two_pow_pos k
  omega

theorem Sound.insert (sound : index.Sound hashOf keyOf indices) (i : Nat) :
    ∃ index', index.insert hashOf keyOf i = some index' ∧
      index'.Sound hashOf keyOf (i :: indices) := by
  have room := sound.room
  obtain ⟨p, ends, place⟩ := sound.holds.find room (keyOf i)
  have keys : Slot.Keys (some <| keyOf ·) hashOf ⟨hashOf (keyOf i), i + 1⟩ (keyOf i) :=
    ⟨by simp, rfl, rfl⟩
  have put := sound.holds.put (fun slot => ∃ key j, (i :: indices).find? (keyOf · = key) = some j ∧
    slot = ⟨hashOf key, j + 1⟩) place keys fun s => by
      grind [Slot.Keys]
  unfold FlatKeyIndex.insert
  rw [probe, ends, Option.bind_some]
  dsimp only
  split
  next full =>
    obtain ⟨content, few, apart⟩ := put.taken
    obtain ⟨slots, filled, length, holds⟩ :=
      put.grow content few (by rw [length_set]; omega) apart
    exact ⟨_, by rw [resize, filled]; rfl, holds, by
      simp [length] at full ⊢
      omega⟩
  next half => exact ⟨_, rfl, put, Nat.not_lt.mp half⟩

theorem record_sound (hashOf : Key → Nat) (keyOf : Nat → Key) (expectedElements : Nat) (indices : List Nat) :
    ∃ index, record hashOf keyOf expectedElements indices = some index ∧
      index.Sound hashOf keyOf indices := by
  induction indices with
  | nil =>
    obtain ⟨-, k, size⟩ := tableSizeFor_spec expectedElements
    rw [record, make, size]
    exact ⟨_, rfl, by simpa using holds_replicate _ _ k, Nat.zero_le _⟩
  | cons i before ih =>
    obtain ⟨index, recorded, sound⟩ := ih
    rw [record, recorded]
    exact sound.insert i

theorem Sound.find (sound : index.Sound hashOf keyOf indices) (key : Key) :
    index.find hashOf keyOf key = some ((indices.find? (keyOf · = key)).getD kFlatKeyNotFound) := by
  obtain ⟨p, ends, place⟩ := sound.holds.find sound.room key
  unfold FlatKeyIndex.find
  rw [probe, ends, Option.map_some]
  cases last : indices.find? (keyOf · = key) with
  | none =>
    rw [if_neg (place.absent sound.holds ?_)]
    · rfl
    rintro slot ⟨other, j, found, rfl⟩ keys
    grind [Slot.Keys]
  | some j =>
    have same := find?_some last
    rw [place.present sound.holds ⟨key, j, last, rfl⟩ ⟨by simp, rfl, by simpa using same⟩]
    simp

end FlatKeyIndex

/-- Over any calls the set is the list of the keys' first occurrences since the last reset, the
index answers what was recorded last, and an empty slot remains to end every probe. -/
theorem flatDedup_refines (hashOf : Key → Nat) [DecidableEq Key] (keyOf : Nat → Key)
    (maxElements : Nat) (calls : List (FlatDedupSet.Call Key)) (indices : List Nat) :
    (∃ set, FlatDedupSet.run hashOf maxElements calls = some set ∧
      set.keys = FlatDedupSet.seen calls ∧
      (∃ p < set.slots.length, ¬ (slotAt set.slots p).Taken) ∧ ∀ key,
        (∃ set', set.insert hashOf key = some (decide (key ∉ FlatDedupSet.seen calls), set')) ∧
        (∃ set', set.intern hashOf key = some ((FlatDedupSet.seen calls).idxOf key, set')) ∧
        set.contains hashOf key = some (decide (key ∈ FlatDedupSet.seen calls))) ∧
    ∃ index, FlatKeyIndex.record hashOf keyOf maxElements indices = some index ∧
      (∃ p < index.slots.length, ¬ (slotAt index.slots p).Taken) ∧
      ∀ key, index.find hashOf keyOf key =
        some ((indices.find? (keyOf · = key)).getD kFlatKeyNotFound) := by
  obtain ⟨set, ran, keys, sound⟩ := FlatDedupSet.run_sound hashOf maxElements calls
  obtain ⟨index, recorded, sound'⟩ :=
    FlatKeyIndex.record_sound hashOf keyOf maxElements indices
  refine ⟨⟨set, ran, keys, sound.holds.free sound.room, fun key => ?_⟩, index, recorded,
    sound'.holds.free sound'.room, sound'.find⟩
  rw [← keys]
  obtain ⟨p, ends, -, read⟩ := sound.probe key
  obtain ⟨set', inserted, -⟩ := sound.insert key
  obtain ⟨set'', interned, -⟩ := sound.intern key
  refine ⟨⟨set', inserted⟩, ⟨set'', interned⟩, ?_⟩
  simp [FlatDedupSet.contains, ends, read]

end Microide.Util
