/-
A line of versions with a present one.

What undo and redo are for, of whatever is undone: the versions that were left behind by an
edit, the newest first, and those that were left by an undo. An edit makes a new present
and forgets the versions undone; a coalesced edit replaces the present.

**Main result.** `redo_undo_iterate`: as many redos as undos lead back.
-/

import Mathlib.Logic.Function.Iterate

namespace Microide.Lib

structure Timeline (α : Type*) where
  past : List α := []
  now : α
  future : List α := []

namespace Timeline

variable {α : Type*}

/-- A new version. -/
def record (t : Timeline α) (version : α) : Timeline α := ⟨t.now :: t.past, version, []⟩

/-- A new version in place of the present one. -/
def amend (t : Timeline α) (version : α) : Timeline α := ⟨t.past, version, []⟩

def undo (t : Timeline α) : Timeline α :=
  match t.past with
  | [] => t
  | version :: past => ⟨past, version, t.now :: t.future⟩

def redo (t : Timeline α) : Timeline α :=
  match t.future with
  | [] => t
  | version :: future => ⟨t.now :: t.past, version, future⟩

theorem redo_undo {t : Timeline α} (h : t.past ≠ []) : t.undo.redo = t := by
  obtain ⟨past, now, future⟩ := t
  cases past with
  | nil => exact absurd rfl h
  | cons version past => rfl

theorem past_undo (t : Timeline α) : t.undo.past = t.past.tail := by
  obtain ⟨past, now, future⟩ := t
  cases past with
  | nil => rfl
  | cons version past => rfl

theorem past_undo_iterate (t : Timeline α) (k : Nat) : (undo^[k] t).past = t.past.drop k := by
  induction k with
  | zero => rfl
  | succ k ih => rw [Function.iterate_succ_apply', past_undo, ih, List.tail_drop]

/-- **As many redos as undos lead back.** -/
theorem redo_undo_iterate (t : Timeline α) {k : Nat} (h : k ≤ t.past.length) :
    redo^[k] (undo^[k] t) = t := by
  induction k with
  | zero => rfl
  | succ k ih =>
      have hpast : (undo^[k] t).past ≠ [] := by
        rw [past_undo_iterate]
        intro hnil
        have := congrArg List.length hnil
        rw [List.length_drop, List.length_nil] at this
        omega
      rw [Function.iterate_succ_apply' undo, Function.iterate_succ_apply redo, redo_undo hpast]
      exact ih (Nat.le_of_succ_le h)

theorem now_undo_iterate (t : Timeline α) {k : Nat} (h : k < t.past.length) :
    (undo^[k + 1] t).now = t.past[k] := by
  have hcons : (undo^[k] t).past = t.past[k] :: t.past.drop (k + 1) := by
    rw [past_undo_iterate, List.drop_eq_getElem_cons h]
  rw [Function.iterate_succ_apply', undo, hcons]

end Timeline

end Microide.Lib
