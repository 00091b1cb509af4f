/-
Words of byte lanes.

A word read from bytes has one byte a lane. Subtracting one in every lane borrows from a lane only
where a lane below it was zero: the lowest zero lane turns to all ones, whatever is above it.

**Main results.** `testBit_lane`: a bit of a lane; `testBit_lowest_zero`: the top bit of the lowest
zero lane after the subtraction; `getLe_injective`: a word tells its bytes.
-/

import Microide.Lib.ByteCodec

namespace Microide.Lib

open List

theorem getLe_append (front back : List UInt8) :
    getLe (front ++ back) = getLe front + 256 ^ front.length * getLe back := by
  induction front with
  | nil => rw [nil_append, getLe, length_nil, Nat.pow_zero, Nat.one_mul, Nat.zero_add]
  | cons b front ih =>
    rw [cons_append, getLe, getLe, ih, length_cons, Nat.pow_succ]
    ring_nf

theorem getLe_injective {bytes more : List UInt8} (length : bytes.length = more.length)
    (same : getLe bytes = getLe more) : bytes = more := by
  rw [← putLe_getLe bytes, ← putLe_getLe more, same, length]

/-- No lane is below one. -/
theorem getLe_ones_le {bytes : List UInt8} (nonzero : 0 ∉ bytes) :
    getLe (List.replicate bytes.length 1) ≤ getLe bytes := by
  induction bytes with
  | nil => exact le_refl _
  | cons b bytes ih =>
    have rest := ih fun mem => nonzero (mem_cons_of_mem _ mem)
    have apart : b.toNat ≠ 0 := fun zero => nonzero (by
      rw [← UInt8.toNat_inj.mp (show b.toNat = (0 : UInt8).toNat from zero)]
      exact mem_cons_self)
    rw [length_cons, replicate_succ, getLe, getLe, show (1 : UInt8).toNat = 1 from rfl]
    omega

/-- The bits of a number from a lane on. -/
theorem testBit_above {low high width j : Nat} (small : low < 256 ^ width) :
    (low + 256 ^ width * high).testBit (8 * width + j) = high.testBit j := by
  have power : 256 ^ width = 2 ^ (8 * width) := by rw [Nat.pow_mul]
  rw [power] at small ⊢
  rw [Nat.add_comm, Nat.testBit_two_pow_mul_add _ small, if_neg (by omega), Nat.add_sub_cancel_left]

theorem testBit_lane (front : List UInt8) (b : UInt8) (back : List UInt8) {j : Nat} (inside : j < 8) :
    (getLe (front ++ b :: back)).testBit (8 * front.length + j) = b.toNat.testBit j := by
  rw [getLe_append, testBit_above (getLe_lt front), getLe]
  have low : b.toNat < 2 ^ 8 := b.toNat_lt
  rw [Nat.add_comm, show 256 * getLe back = 2 ^ 8 * getLe back from rfl,
    Nat.testBit_two_pow_mul_add _ low, if_pos inside]

/-- One less in every lane: the lowest zero lane is all ones. -/
theorem testBit_lowest_zero {front back : List UInt8} (nonzero : 0 ∉ front) {width : Nat}
    (whole : (front ++ (0 : UInt8) :: back).length = width) {j : Nat} (inside : j < 8) :
    (256 ^ width - getLe (List.replicate width 1) + getLe (front ++ 0 :: back)).testBit
      (8 * front.length + j) = true := by
  have ones : List.replicate width (1 : UInt8) =
      List.replicate front.length 1 ++ 1 :: List.replicate back.length 1 := by
    rw [← replicate_succ, replicate_append_replicate, ← whole, length_append, length_cons]
  have below := getLe_ones_le nonzero
  have aboveLt := getLe_lt (List.replicate back.length 1)
  have lowLt := getLe_lt front
  rw [length_replicate] at aboveLt
  have power : 256 ^ width = 256 ^ front.length * (256 * 256 ^ back.length) := by
    rw [← whole, length_append, length_cons, Nat.pow_add, Nat.pow_succ,
      Nat.mul_comm 256 (256 ^ back.length)]
  have lanes : 256 ^ width - getLe (List.replicate width 1) + getLe (front ++ 0 :: back) =
      (getLe front - getLe (List.replicate front.length 1)) + 256 ^ front.length *
        (255 + 256 * (256 ^ back.length - getLe (List.replicate back.length 1) - 1 + getLe back)) := by
    rw [power, ones, getLe_append, getLe_append, getLe, getLe, length_replicate,
      show (1 : UInt8).toNat = 1 from rfl, show (0 : UInt8).toNat = 0 from rfl]
    obtain ⟨spare, above⟩ := Nat.exists_eq_add_of_lt aboveLt
    obtain ⟨excess, low⟩ := Nat.exists_eq_add_of_le below
    obtain ⟨room, bound⟩ := Nat.exists_eq_add_of_le (below.trans lowLt.le)
    have spared : getLe (List.replicate back.length 1) + spare + 1 -
        getLe (List.replicate back.length 1) - 1 + getLe back = spare + getLe back := by omega
    rw [above, low, spared, Nat.add_sub_cancel_left, bound]
    generalize getLe (List.replicate front.length 1) = ones
    generalize getLe (List.replicate back.length 1) = onesBack
    have left : (ones + room) * (256 * (onesBack + spare + 1)) -
        (ones + (ones + room) * (1 + 256 * onesBack)) =
          ones * (254 + 256 * spare) + room * (255 + 256 * spare) :=
      Nat.sub_eq_of_eq_add (by ring)
    rw [left]
    ring
  rw [lanes, testBit_above (by omega), Nat.add_comm,
    show 256 * (256 ^ back.length - getLe (List.replicate back.length 1) - 1 + getLe back) =
      2 ^ 8 * (256 ^ back.length - getLe (List.replicate back.length 1) - 1 + getLe back) from rfl,
    Nat.testBit_two_pow_mul_add _ (by decide), if_pos inside]
  have all : ∀ j < 8, (255 : Nat).testBit j = true := by decide
  exact all j inside

end Microide.Lib
