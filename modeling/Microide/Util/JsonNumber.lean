/-
Number literals as the program reads them.

A double is its 64 bits. `std::from_chars` reads the token of a literal as the nearest double,
ties to even; a number no finite double is nearest to is out of range: too large from halfway
past the largest double on, too small up to half the smallest. `ParseDouble` then asks `long
double`, and narrows what that holds.

**Main results.** `parseDouble_integer`: of the integer literals those out of range have no
double; `numberValue_isSome`: every other literal has a value.
-/

import Mathlib
import Microide.Lib.JsonGrammar
import Microide.Util.JsonValue

namespace Microide.Util

open Option Lib.Json

/-! ### Doubles -/

def signBit (minus : Bool) : Nat := if minus then 2 ^ 63 else 0

/-- The bits of a double's exponent and significand. -/
def magnitudeBits (bits : UInt64) : Nat := bits.toNat % 2 ^ 63

def infinityBits : Nat := 2047 * 2 ^ 52

/-- `std::isfinite`. -/
def isFinite (bits : UInt64) : Bool := magnitudeBits bits < infinityBits

/-- The number a finite double is. -/
def doubleValue (bits : UInt64) : Rat :=
  let field := magnitudeBits bits / 2 ^ 52
  let significand := magnitudeBits bits % 2 ^ 52 + if field = 0 then 0 else 2 ^ 52
  let magnitude := mkRat (significand * 2 ^ (field - 1) : Nat) (2 ^ 1074)
  if 2 ^ 63 ≤ bits.toNat then -magnitude else magnitude

/-- The quotient rounded to the nearest whole number, ties to even. -/
def roundHalfEven (num den : Nat) : Nat :=
  let quotient := num / den
  let twice := 2 * (num % den)
  if den < twice ∨ (twice = den ∧ quotient % 2 = 1) then quotient + 1 else quotient

/-- The largest power of two up to `num / den`, by its exponent. -/
def log2Ratio (num den : Nat) : Int :=
  if den ≤ num then Nat.log2 (num / den) else -(Nat.log2 ((den - 1) / num) + 1 : Nat)

/-- Exponent and significand of the double nearest to `num / den`: a significand rounded up to
the next power of two carries into the exponent. -/
def nearestMagnitude (num den : Nat) : Nat :=
  let unit := max (-1074) (log2Ratio num den - 52)
  (unit + 1074).toNat * 2 ^ 52 + roundHalfEven (num * 2 ^ (-unit).toNat) (den * 2 ^ unit.toNat)

/-- What `std::from_chars` answers: a double, or `std::errc::result_out_of_range`. -/
inductive FromChars where
  | value (bits : UInt64)
  | tooLarge
  | tooSmall
deriving DecidableEq

/-- Halfway between the largest double and the power of two after it. -/
def overflowBound : Nat := 2 ^ 1024 - 2 ^ 970

def nearestDouble (minus : Bool) (num den : Nat) : FromChars :=
  if num = 0 then .value (UInt64.ofNat (signBit minus))
  else if overflowBound * den ≤ num then .tooLarge
  else if num * 2 ^ 1075 ≤ den then .tooSmall
  else .value (UInt64.ofNat (signBit minus + nearestMagnitude num den))

/-! ### The conversions of a token -/

def numerator (tok : Number) : Nat := tok.significand * 10 ^ tok.scale.toNat

def denominator (tok : Number) : Nat := 10 ^ (-tok.scale).toNat

def fromChars (tok : Number) : FromChars :=
  nearestDouble tok.minus (numerator tok) (denominator tok)

/-- `long double`, of 64 significant bits, has a value for the number. -/
def longDoubleHolds (tok : Number) : Bool :=
  numerator tok < (2 ^ 16384 - 2 ^ 16319) * denominator tok &&
    denominator tok < numerator tok * 2 ^ 16446

/-- What `long double` holds, narrowed: a number out of range is an infinity or a zero there. -/
def narrowed (tok : Number) (magnitude : Nat) : Option UInt64 :=
  if longDoubleHolds tok then some (UInt64.ofNat (signBit tok.minus + magnitude)) else none

/-- `ParseDouble`. -/
def parseDouble (tok : Number) : Option UInt64 :=
  match fromChars tok with
  | .value bits => some bits
  | .tooLarge => (narrowed tok infinityBits).filter isFinite
  | .tooSmall => (narrowed tok 0).filter isFinite

/-- `ParseInt64`. -/
def parseInt64 (tok : Number) : Option Int :=
  if -2 ^ 63 ≤ tok.int ∧ tok.int < 2 ^ 63 then some tok.int else none

/-- The value of a token: the tail of `ParseNumber`. -/
def numberValue (tok : Number) : Option JsonValue :=
  if tok.isInteger then
    match parseInt64 tok with
    | some n => some (.int n)
    | none => (parseDouble tok).map .double
  else
    match parseDouble tok with
    | some bits => some (.double bits)
    | none => some (.double (UInt64.ofNat (signBit tok.minus + infinityBits)))

/-! ### The literals without a value -/

/-- An integer literal no finite double is nearest to. -/
def overflows (tok : Number) : Bool :=
  tok.isInteger && decide (overflowBound ≤ digitsValue tok.whole.digits)

theorem overflowBound_large : 2 ^ 63 < overflowBound := by decide +kernel

theorem isFinite_infinity (minus : Bool) :
    isFinite (UInt64.ofNat (signBit minus + infinityBits)) = false := by
  cases minus <;> decide

theorem narrowed_infinity (tok : Number) : (narrowed tok infinityBits).filter isFinite = none := by
  unfold narrowed
  split
  · rw [filter_some, isFinite_infinity]
    rfl
  · rfl

theorem numerator_integer {tok : Number} (integer : tok.isInteger = true) :
    numerator tok = digitsValue tok.whole.digits ∧ denominator tok = 1 := by
  unfold Number.isInteger at integer
  rw [Bool.and_eq_true, isNone_iff_eq_none, isNone_iff_eq_none] at integer
  have scale : tok.scale = 0 := by
    unfold Number.scale
    rw [integer.1, integer.2]
    rfl
  unfold numerator denominator Number.significand
  rw [scale, integer.1]
  simp

/-- Of the integer literals, those out of range have no double. -/
theorem parseDouble_integer {tok : Number} (integer : tok.isInteger = true) :
    parseDouble tok = none ↔ overflowBound ≤ digitsValue tok.whole.digits := by
  obtain ⟨num, den⟩ := numerator_integer integer
  unfold parseDouble fromChars nearestDouble
  rw [num, den, Nat.mul_one]
  have tiny : ∀ n, n ≠ 0 → ¬ n * 2 ^ 1075 ≤ 1 := by
    intro n nonzero small
    have large : 2 ^ 1075 ≤ n * 2 ^ 1075 := Nat.le_mul_of_pos_left _ (Nat.pos_of_ne_zero nonzero)
    exact absurd (large.trans small) (by decide +kernel)
  have positive := overflowBound_large
  generalize overflowBound = bound at *
  generalize digitsValue tok.whole.digits = n at *
  by_cases zero : n = 0
  · rw [if_pos zero]
    simp only [reduceCtorEq, false_iff]
    omega
  · rw [if_neg zero]
    by_cases large : bound ≤ n
    · rw [if_pos large]
      simp only [narrowed_infinity, large]
    · rw [if_neg large, if_neg (tiny n zero)]
      simp only [reduceCtorEq, large]

/-- Every literal has a value but an integer literal out of range. -/
theorem numberValue_isSome (tok : Number) : (numberValue tok).isSome = !overflows tok := by
  unfold numberValue overflows
  cases integer : tok.isInteger with
  | false =>
    cases parseDouble tok <;> rfl
  | true =>
    cases int : parseInt64 tok with
    | some n =>
      have small : ¬ overflowBound ≤ digitsValue tok.whole.digits := by
        unfold parseInt64 at int
        split at int
        next range =>
          have bound := overflowBound_large
          unfold Number.int at range
          split at range <;> omega
        · cases int
      simp [small]
    | none =>
      by_cases large : overflowBound ≤ digitsValue tok.whole.digits
      · simp [(parseDouble_integer integer).mpr large, large]
      · have some : (parseDouble tok).isSome = true := by
          rw [← ne_none_iff_isSome]
          exact fun none => large ((parseDouble_integer integer).mp none)
        simp [some, large]

end Microide.Util
