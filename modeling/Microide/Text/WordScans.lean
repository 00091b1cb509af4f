/-
Scans a word at a time.

Eight bytes are looked at as one word as long as the word tells that none of them ends the scan; from
the first word that does not, the bytes are looked at one by one.

**Main results.** `skipWords_spec`: no byte of the words skipped ends the scan; `wordScans`: both
scans answer as the search by bytes.
-/

import Microide.Lib.ByteLanes
import Microide.Text.Lines

namespace Microide.Text

open List Lib

/-! ### The scans -/

def kHighBits : UInt64 := 0x8080808080808080

def kLowOnes : UInt64 := 0x0101010101010101

/-- The word of the eight bytes from a place on, the first one lowest. -/
def loadWord (text : List UInt8) (index : Nat) : UInt64 :=
  UInt64.ofNat (getLe ((text.drop index).take 8))

/-- The loop by words: where it stops, or where fewer than eight bytes are left. -/
def skipWords (stops : UInt64 → Bool) (text : List UInt8) (index : Nat) : Nat :=
  if index + 8 ≤ text.length then
    if stops (loadWord text index) then index else skipWords stops text (index + 8)
  else index
termination_by text.length - index

/-- The loop by bytes. -/
def scanBytes (stops : UInt8 → Bool) (text : List UInt8) (index : Nat) : Nat :=
  if inside : index < text.length then
    if stops text[index] then index else scanBytes stops text (index + 1)
  else text.length
termination_by text.length - index

/-- The word may have a byte beyond ASCII or this one. -/
def marksNonAsciiOrByte (alsoMatch : UInt8) (word : UInt64) : Bool :=
  let marks := word ^^^ (kLowOnes * alsoMatch.toUInt64)
  ((word &&& kHighBits) ||| ((marks - kLowOnes) &&& ~~~marks &&& kHighBits)) ≠ 0

def isNonAsciiOrByte (alsoMatch byte : UInt8) : Bool := 0x80 ≤ byte || byte = alsoMatch

def firstNonAsciiOrByte (text : List UInt8) (alsoMatch : UInt8) : Nat :=
  scanBytes (isNonAsciiOrByte alsoMatch) text (skipWords (marksNonAsciiOrByte alsoMatch) text 0)

def leadingByteRun (text : List UInt8) (byte : UInt8) : Nat :=
  scanBytes (· ≠ byte) text (skipWords (· ≠ kLowOnes * byte.toUInt64) text 0)

/-! ### Words -/

variable {index : Nat}

theorem length_word {text : List UInt8} (inside : index + 8 ≤ text.length) :
    ((text.drop index).take 8).length = 8 := by
  rw [length_take, length_drop]
  omega

variable {bytes : List UInt8}

theorem toNat_word (length : bytes.length = 8) :
    (UInt64.ofNat (getLe bytes)).toNat = getLe bytes := by
  have small := getLe_lt bytes
  rw [length] at small
  exact Nat.mod_eq_of_lt small

/-- The same byte in every lane. -/
theorem toNat_needle (byte : UInt8) :
    (kLowOnes * byte.toUInt64).toNat = getLe (List.replicate 8 byte) := by
  have small := byte.toNat_lt
  rw [UInt64.toNat_mul, UInt8.toNat_toUInt64, show kLowOnes.toNat = 0x0101010101010101 from rfl]
  simp only [List.replicate, getLe]
  omega

/-- The exclusive or of words is that of their bytes. -/
theorem getLe_xor {more : List UInt8} (length : bytes.length = more.length) :
    getLe bytes ^^^ getLe more = getLe (List.zipWith (· ^^^ ·) bytes more) := by
  induction bytes generalizing more with
  | nil =>
    obtain rfl := length_eq_zero_iff.mp length.symm
    rfl
  | cons b bytes ih =>
    cases more with
    | nil => exact absurd length (Nat.succ_ne_zero _)
    | cons c more =>
      rw [zipWith_cons_cons, getLe, getLe, getLe, ← ih (Nat.succ.inj length)]
      refine Nat.eq_of_testBit_eq fun i => ?_
      have lane (b : UInt8) (high : Nat) : (b.toNat + 256 * high).testBit i =
          if i < 8 then b.toNat.testBit i else high.testBit (i - 8) := by
        rw [Nat.add_comm, show 256 * high = 2 ^ 8 * high from rfl,
          Nat.testBit_two_pow_mul_add _ b.toNat_lt]
      rw [Nat.testBit_xor, lane, lane, lane, UInt8.toNat_xor]
      split
      · rw [Nat.testBit_xor]
      · rw [Nat.testBit_xor]

/-- A word in which the subtraction marks no lane has no zero byte. -/
theorem no_zero_of_unmarked (length : bytes.length = 8) {marks : UInt64}
    (word : marks.toNat = getLe bytes)
    (unmarked : (marks - kLowOnes) &&& ~~~marks &&& kHighBits = 0) : 0 ∉ bytes := by
  intro mem
  obtain ⟨front, back, rfl, nonzero⟩ := eq_append_cons_of_mem mem
  have place : front.length < 8 := by
    rw [length_append, length_cons] at length
    omega
  have inside : 8 * front.length + 7 < 64 := by omega
  have clear : marks.toNat.testBit (8 * front.length + 7) = false := by
    rw [word]
    exact (testBit_lane front 0 back (by decide)).trans (by decide)
  have turned : (marks - kLowOnes).toNat.testBit (8 * front.length + 7) = true := by
    have lowest := @testBit_lowest_zero front back nonzero 8 length 7 (by decide)
    rw [UInt64.toNat_sub, word, Nat.testBit_mod_two_pow, decide_eq_true inside, Bool.true_and]
    exact lowest
  have high : kHighBits.toNat.testBit (8 * front.length + 7) = true := by
    have all : ∀ k < 8, kHighBits.toNat.testBit (8 * k + 7) = true := by decide
    exact all front.length place
  have complement : (~~~marks).toNat.testBit (8 * front.length + 7) = true := by
    have flipped : (~~~marks).toNat = 2 ^ 64 - (marks.toNat + 1) := by
      rw [UInt64.toNat_not, show UInt64.size = 2 ^ 64 from rfl]
      omega
    rw [flipped, Nat.testBit_two_pow_sub_succ marks.toNat_lt, clear, decide_eq_true inside]
    rfl
  have bits := congrArg (fun x : UInt64 => x.toNat.testBit (8 * front.length + 7)) unmarked
  rw [UInt64.toNat_and, UInt64.toNat_and, Nat.testBit_and, Nat.testBit_and, turned, high,
    complement] at bits
  exact absurd (bits.trans (Nat.zero_testBit _)) (by decide)

/-- A word in which no lane has its top bit is of ASCII bytes. -/
theorem ascii_of_low (length : bytes.length = 8) {word : UInt64} (read : word.toNat = getLe bytes)
    (low : word &&& kHighBits = 0) : ∀ b ∈ bytes, b < 0x80 := by
  intro b mem
  obtain ⟨front, back, rfl⟩ := append_of_mem mem
  have place : front.length < 8 := by
    rw [length_append, length_cons] at length
    omega
  have high : kHighBits.toNat.testBit (8 * front.length + 7) = true := by
    have all : ∀ k < 8, kHighBits.toNat.testBit (8 * k + 7) = true := by decide
    exact all front.length place
  have bits := congrArg (fun x : UInt64 => x.toNat.testBit (8 * front.length + 7)) low
  rw [UInt64.toNat_and, Nat.testBit_and, high, Bool.and_true, read, testBit_lane _ _ _ (by decide),
    show (0 : UInt64).toNat = 0 from rfl, Nat.zero_testBit] at bits
  have small := b.toNat_lt
  rw [Nat.testBit_eq_decide_div_mod_eq, decide_eq_false_iff_not] at bits
  rw [UInt8.lt_iff_toNat_lt, show (0x80 : UInt8).toNat = 128 from rfl]
  omega

/-! ### Searches -/

section Searches

variable {stops : UInt8 → Bool} {text : List UInt8}

/-- The loop by bytes goes on with the search from where it begins. -/
theorem scanBytes_eq (le : index ≤ text.length) :
    scanBytes stops text index = index + (text.drop index).findIdx stops := by
  fun_induction scanBytes stops text index with
  | case1 index inside stop =>
    rw [drop_eq_getElem_cons inside, findIdx_cons, stop]
    rfl
  | case2 index inside goes ih =>
    rw [ih inside, drop_eq_getElem_cons inside, findIdx_cons, Bool.eq_false_iff.mpr goes]
    dsimp only [cond_false]
    omega
  | case3 index past =>
    rw [drop_eq_nil_of_le (Nat.le_of_not_lt past), findIdx_nil]
    omega

/-- What the loop by words leaves behind does not end the search. -/
theorem skipWords_spec (marks : UInt64 → Bool)
    (sound : ∀ bytes : List UInt8, bytes.length = 8 → marks (UInt64.ofNat (getLe bytes)) = false →
      ∀ b ∈ bytes, stops b = false)
    (le : index ≤ text.length) (behind : ∀ b ∈ text.take index, stops b = false) :
    skipWords marks text index ≤ text.length ∧
      ∀ b ∈ text.take (skipWords marks text index), stops b = false := by
  fun_induction skipWords marks text index with
  | case1 index inside marked => exact ⟨le, behind⟩
  | case2 index inside unmarked ih =>
    refine ih inside fun b mem => ?_
    rw [take_add] at mem
    rcases mem_append.mp mem with mem | mem
    · exact behind b mem
    · exact sound _ (length_word inside) (Bool.eq_false_iff.mpr unmarked) b mem
  | case3 index short => exact ⟨le, behind⟩

/-- The search by bytes from where nothing before ends it. -/
theorem findIdx_drop (le : index ≤ text.length) (behind : ∀ b ∈ text.take index, stops b = false) :
    index + (text.drop index).findIdx stops = text.findIdx stops := by
  have cut := take_append_drop index text
  have length : (text.take index).length = index := length_take_of_le le
  have none_ : (text.take index).findIdx stops = (text.take index).length :=
    findIdx_eq_length.mpr behind
  conv_rhs => rw [← cut]
  rw [findIdx_append, none_, if_neg (lt_irrefl _), length, Nat.add_comm]

end Searches

/-! ### Both scans -/

/-- An unmarked word has only ASCII bytes other than the needle. -/
theorem marksNonAsciiOrByte_sound (needle : UInt8) (length : bytes.length = 8)
    (unmarked : marksNonAsciiOrByte needle (UInt64.ofNat (getLe bytes)) = false) :
    ∀ b ∈ bytes, isNonAsciiOrByte needle b = false := by
  rw [marksNonAsciiOrByte] at unmarked
  rw [decide_eq_false_iff_not, not_not, UInt64.or_eq_zero_iff] at unmarked
  obtain ⟨low, marked⟩ := unmarked
  have read := toNat_word length
  have lanes : (UInt64.ofNat (getLe bytes) ^^^ kLowOnes * needle.toUInt64).toNat =
      getLe (List.zipWith (· ^^^ ·) bytes (List.replicate 8 needle)) := by
    rw [UInt64.toNat_xor, read, toNat_needle, getLe_xor (length.trans length_replicate.symm)]
  have zipped : (List.zipWith (· ^^^ ·) bytes (List.replicate 8 needle)).length = 8 := by
    rw [length_zipWith, length, length_replicate, Nat.min_self]
  have nonzero := no_zero_of_unmarked zipped lanes marked
  have ascii := ascii_of_low length read low
  intro b mem
  rw [isNonAsciiOrByte, Bool.or_eq_false_iff, decide_eq_false_iff_not, decide_eq_false_iff_not]
  refine ⟨UInt8.not_le.mpr (ascii b mem), ?_⟩
  rintro rfl
  obtain ⟨i, inside, here⟩ := getElem_of_mem mem
  refine nonzero (mem_iff_getElem.mpr ⟨i, by rw [zipped, ← length]; exact inside, ?_⟩)
  rw [getElem_zipWith, here, getElem_replicate, UInt8.xor_self]

/-- A word of the needle in every lane has no other byte. -/
theorem needle_of_word_eq (needle : UInt8) (length : bytes.length = 8)
    (same : decide (UInt64.ofNat (getLe bytes) ≠ kLowOnes * needle.toUInt64) = false) :
    ∀ b ∈ bytes, decide (b ≠ needle) = false := by
  rw [decide_eq_false_iff_not, not_not] at same
  have lanes := congrArg UInt64.toNat same
  rw [toNat_word length, toNat_needle] at lanes
  have all := getLe_injective (length.trans length_replicate.symm) lanes
  intro b mem
  rw [all] at mem
  rw [eq_of_mem_replicate mem]
  exact decide_eq_false (not_not.mpr rfl)

/-- **Words and bytes.** Both scans answer as the search that looks at one byte after the other. -/
theorem wordScans (text : List UInt8) (needle : UInt8) :
    firstNonAsciiOrByte text needle = text.findIdx (fun b => 0x80 ≤ b || b = needle) ∧
      leadingByteRun text needle = text.findIdx (· ≠ needle) := by
  have nothing (stops : UInt8 → Bool) : ∀ b ∈ text.take 0, stops b = false :=
    fun b mem => absurd mem not_mem_nil
  constructor
  · obtain ⟨le, behind⟩ := skipWords_spec (marksNonAsciiOrByte needle)
      (fun _ => marksNonAsciiOrByte_sound needle) (Nat.zero_le text.length) (nothing _)
    rw [firstNonAsciiOrByte, scanBytes_eq le, findIdx_drop le behind]
    rfl
  · obtain ⟨le, behind⟩ := skipWords_spec (fun word => decide (word ≠ kLowOnes * needle.toUInt64))
      (fun _ => needle_of_word_eq needle) (Nat.zero_le text.length) (nothing _)
    rw [leadingByteRun, scanBytes_eq le, findIdx_drop le behind]

end Microide.Text
