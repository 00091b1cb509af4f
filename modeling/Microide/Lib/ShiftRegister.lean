/-
Reflected shift registers.

A register divides a stream of bits by a polynomial, the lowest bit first: it takes a bit in at
its low end, moves down, and where a one falls out it subtracts the polynomial. Subtraction has
no carries, so a shift is linear.

**Main results.** `shifts_split`: the low bits of a register can be shifted apart from the rest,
by a table of them; `feed_burst_inj`: two streams that differ within as many bits as the register
has leave different remainders.
-/

import Mathlib.Data.List.Basic
import Mathlib.Logic.Function.Iterate

namespace Microide.Lib

open BitVec List

variable {w : Nat}

def shift (poly c : BitVec w) : BitVec w := if c.getLsbD 0 then c >>> 1 ^^^ poly else c >>> 1

/-- The bits as a word, the first one lowest. -/
def word (w : Nat) (bits : List Bool) : BitVec w := (ofBoolListLE bits).setWidth w

/-- The remainder after `bits`. -/
def feed (poly c : BitVec w) (bits : List Bool) : BitVec w :=
  bits.foldl (fun c b => shift poly (c ^^^ word w [b])) c

variable {poly : BitVec w} {bits : List Bool}

theorem getLsbD_word (i : Nat) :
    (word w bits).getLsbD i = (decide (i < w) && bits.getD i false) := by
  rw [word, getLsbD_setWidth, getLsbD_ofBoolListLE]

theorem shift_xor (a b : BitVec w) : shift poly (a ^^^ b) = shift poly a ^^^ shift poly b := by
  have cancel : a >>> 1 ^^^ b >>> 1 = a >>> 1 ^^^ poly ^^^ (b >>> 1 ^^^ poly) := by
    rw [BitVec.xor_assoc, BitVec.xor_comm _ poly, ← BitVec.xor_assoc poly, BitVec.xor_self, zero_xor]
  have swap : a >>> 1 ^^^ b >>> 1 ^^^ poly = a >>> 1 ^^^ poly ^^^ b >>> 1 := by
    rw [BitVec.xor_assoc, BitVec.xor_comm _ poly, ← BitVec.xor_assoc]
  unfold shift
  rw [getLsbD_xor, ushiftRight_xor_distrib]
  cases a.getLsbD 0 <;> cases b.getLsbD 0
  exacts [rfl, BitVec.xor_assoc .., swap, cancel]

theorem shifts_xor (n : Nat) (a b : BitVec w) :
    (shift poly)^[n] (a ^^^ b) = (shift poly)^[n] a ^^^ (shift poly)^[n] b := by
  induction n generalizing a b with
  | zero => rfl
  | succ n ih => rw [Function.iterate_succ_apply, shift_xor, ih]; rfl

/-- Zeros that fall out change nothing. -/
theorem shifts_of_low {n : Nat} {c : BitVec w} (low : ∀ i < n, c.getLsbD i = false) :
    (shift poly)^[n] c = c >>> n := by
  induction n with
  | zero => exact (ushiftRight_zero c).symm
  | succ n ih =>
    have clear : (c >>> n).getLsbD 0 = false := by simpa using low n n.lt_succ_self
    rw [Function.iterate_succ_apply', ih fun i less => low i (Nat.lt_succ_of_lt less), shift,
      clear, shiftRight_add]
    rfl

theorem shifts_split (n : Nat) (c : BitVec w) :
    (shift poly)^[n] c = (shift poly)^[n] ((c.setWidth n).setWidth w) ^^^ c >>> n := by
  have parts : c = (c.setWidth n).setWidth w ^^^ (c >>> n) <<< n := by grind
  have high : (shift poly)^[n] ((c >>> n) <<< n) = c >>> n := by
    rw [shifts_of_low (by simp +contextual)]
    grind
  conv => lhs; rw [parts, shifts_xor, high]

theorem shift_inj (top : poly.msb = true) : (shift poly).Injective := by
  have zero (c : BitVec w) (none : shift poly c = 0#w) : c = 0#w := by
    unfold shift at none
    split at none
    next =>
      have same := congrArg BitVec.msb (BitVec.xor_eq_zero_iff.mp none)
      simp [top] at same
    next low =>
      refine eq_of_getLsbD_eq fun i _ => ?_
      cases i with
      | zero => simpa using low
      | succ i => simpa [Nat.add_comm] using congrArg (getLsbD · i) none
  intro a b same
  rw [← BitVec.xor_eq_zero_iff] at same ⊢
  exact zero _ ((shift_xor a b).trans same)

/-- A word that fits goes in as its bits do. -/
theorem feed_eq (fits : bits.length ≤ w) (c : BitVec w) :
    feed poly c bits = (shift poly)^[bits.length] (c ^^^ word w bits) := by
  induction bits generalizing c with
  | nil =>
    have zero : word w [] = 0#w := eq_of_getLsbD_eq fun i _ => by simp [getLsbD_word]
    rw [zero, xor_zero]
    rfl
  | cons b bits ih =>
    rw [length_cons] at fits
    -- the later bits stand one higher, and come down with the first shift
    have higher : word w (b :: bits) = word w [b] ^^^ word w bits <<< 1 :=
      eq_of_getLsbD_eq fun i inside => by
        simp only [getLsbD_xor, getLsbD_shiftLeft, getLsbD_word, inside]
        cases i with
        | zero => simp
        | succ i => simp [Nat.lt_of_succ_lt inside]
    have down : shift poly (word w bits <<< 1) = word w bits := by
      refine (shifts_of_low (n := 1) (by simp)).trans (eq_of_getLsbD_eq fun i inside => ?_)
      grind [getLsbD_word]
    have next := ih (Nat.le_of_succ_le fits) (shift poly (c ^^^ word w [b]))
    rw [length_cons, Function.iterate_succ_apply, higher, ← BitVec.xor_assoc, shift_xor, down, ← next]
    rfl

theorem feed_append (c : BitVec w) (bits more : List Bool) :
    feed poly c (bits ++ more) = feed poly (feed poly c bits) more := foldl_append

theorem feed_inj (top : poly.msb = true) (bits : List Bool) : (feed poly · bits).Injective := by
  induction bits with
  | nil => exact fun _ _ => id
  | cons b bits ih => exact fun a c same => (xor_left_inj _).mp (shift_inj top (ih same))

/-- A change of as many bits as the register has shows in the remainder. -/
theorem feed_burst_inj (top : poly.msb = true) {burst burst' : List Bool} (before after : List Bool)
    (same : burst.length = burst'.length) (fits : burst.length ≤ w) {c : BitVec w}
    (equal : feed poly c (before ++ burst ++ after) = feed poly c (before ++ burst' ++ after)) :
    burst = burst' := by
  simp only [feed_append] at equal
  have inner := feed_inj top after equal
  rw [feed_eq fits, feed_eq (Nat.le_trans (Nat.le_of_eq same.symm) fits), ← same] at inner
  have words := (xor_right_inj _).mp ((shift_inj top).iterate _ inner)
  refine ext_getElem same fun i inside inside' => ?_
  have bit := congrArg (getLsbD · i) words
  simp only [getLsbD_word] at bit
  simpa [inside, inside', Nat.lt_of_lt_of_le inside fits] using bit

end Microide.Lib
