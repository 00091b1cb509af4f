/-
Replacing disjoint ranges of a list.

An edit of a list that replaces several ranges at once, kept as the parts it replaces:
where each part stands in the list before and in the list after, and what it holds in
either. `Splits p q parts pre post` says that the parts, lowest first, are all in which
`pre` and `post` differ; the lists are read from the positions `p` and `q` on.

**Main results.** `Splits.forward` and `Splits.backward`: splicing the parts in, highest
first, turns one list into the other, because a splice does not move what lies below it.
`Splits.comp`: two edits of the same ranges are one.
-/

import Mathlib.Data.List.Basic

namespace Microide.Lib

open List

variable {α : Type*}

/-- Erase `removed` elements at `start` and insert there. -/
def splice (xs : List α) (start removed : Nat) (inserted : List α) : List α :=
  xs.take start ++ inserted ++ xs.drop (start + removed)

/-- A splice at a boundary of three segments replaces the middle one. -/
theorem splice_middle (front before rest after : List α) {start removed : Nat}
    (hstart : start = front.length) (hremoved : removed = before.length) :
    splice (front ++ before ++ rest) start removed after = front ++ after ++ rest := by
  subst hstart hremoved
  rw [splice, ← length_append, drop_left, append_assoc front before rest, take_left]

/-- One replaced range. -/
structure Replacement (α : Type*) where
  beforeStart : Nat
  afterStart : Nat
  before : List α
  after : List α
  deriving DecidableEq

/-- The same range, read from the list after to the list before. -/
def Replacement.swap (part : Replacement α) : Replacement α :=
  ⟨part.afterStart, part.beforeStart, part.after, part.before⟩

/-- The parts are all in which `pre`, read from position `p` on, and `post`, read from `q`
on, differ. -/
def Splits : Nat → Nat → List (Replacement α) → List α → List α → Prop
  | _, _, [], pre, post => pre = post
  | p, q, part :: parts, pre, post =>
    ∃ gap pre' post', pre = gap ++ part.before ++ pre' ∧ post = gap ++ part.after ++ post' ∧
      part.beforeStart = p + gap.length ∧ part.afterStart = q + gap.length ∧
      Splits (part.beforeStart + part.before.length) (part.afterStart + part.after.length) parts
        pre' post'

/-- Splice the parts in, highest first. -/
def applyParts (parts : List (Replacement α)) (xs : List α) : List α :=
  parts.foldr (fun part ys => splice ys part.beforeStart part.before.length part.after) xs

namespace Splits

variable {p q r : Nat} {parts parts' : List (Replacement α)} {pre post xs ys zs : List α}

/-- Read from the list after to the list before. -/
theorem swap (h : Splits p q parts pre post) : Splits q p (parts.map Replacement.swap) post pre := by
  induction parts generalizing p q pre post with
  | nil => exact Eq.symm h
  | cons part parts ih =>
      obtain ⟨gap, pre', post', hpre, hpost, hbefore, hafter, hrest⟩ := h
      exact ⟨gap, post', pre', hpost, hpre, hafter, hbefore, ih hrest⟩

/-- The parts still to be spliced lie below those already spliced in. -/
theorem applyParts_eq (h : Splits p q parts pre post) (front : List α)
    (hfront : front.length = p) : applyParts parts (front ++ pre) = front ++ post := by
  induction parts generalizing p q pre post front with
  | nil => exact congrArg (front ++ ·) h
  | cons part parts ih =>
      obtain ⟨gap, pre', post', rfl, rfl, hbefore, hafter, hrest⟩ := h
      have hinner := ih hrest (front ++ gap ++ part.before) (by
        rw [length_append, length_append, hfront, hbefore])
      rw [applyParts, foldr_cons, ← applyParts, ← append_assoc, ← append_assoc,
        hinner, splice_middle _ _ _ _ (by rw [length_append, hfront, hbefore]) rfl]
      simp only [append_assoc]

/-- **The parts turn the list before into the list after.** -/
theorem forward (h : Splits 0 0 parts pre post) : applyParts parts pre = post :=
  h.applyParts_eq [] rfl

/-- One part between two common ends. -/
theorem single (front before after rest : List α) :
    Splits 0 0 [⟨front.length, front.length, before, after⟩] (front ++ before ++ rest)
      (front ++ after ++ rest) :=
  ⟨front, rest, rest, rfl, rfl, (Nat.zero_add _).symm, (Nat.zero_add _).symm, rfl⟩

theorem single_inv {part : Replacement α} (h : Splits 0 0 [part] pre post) :
    ∃ front rest, pre = front ++ part.before ++ rest ∧ post = front ++ part.after ++ rest ∧
      part.beforeStart = front.length ∧ part.afterStart = front.length := by
  obtain ⟨front, pre', post', hpre, hpost, hbefore, hafter, rfl⟩ := h
  exact ⟨front, pre', hpre, hpost, by rw [hbefore, Nat.zero_add], by rw [hafter, Nat.zero_add]⟩

end Splits

/-- The second edit replaces exactly what the first installed, range by range. -/
def SameShape (first second : List (Replacement α)) : Prop :=
  List.Forall₂ (fun part part' => part.afterStart = part'.beforeStart ∧
    part.after = part'.before) first second

/-- Both edits of one range as one. -/
def Replacement.comp (first second : Replacement α) : Replacement α :=
  ⟨first.beforeStart, second.afterStart, first.before, second.after⟩

/-- **Two edits of the same ranges are one.** -/
theorem Splits.comp {first second : List (Replacement α)} {p q r : Nat} {xs ys zs : List α}
    (hshape : SameShape first second) (h : Splits p q first xs ys) (h' : Splits q r second ys zs) :
    Splits p r (List.zipWith Replacement.comp first second) xs zs := by
  induction hshape generalizing p q r xs ys zs with
  | nil => exact Eq.trans h h'
  | @cons part part' first second hpart _ ih =>
      obtain ⟨gap, xs', ys', rfl, rfl, hbefore, hafter, hrest⟩ := h
      obtain ⟨gap', ys'', zs', heq, rfl, hbefore', hafter', hrest'⟩ := h'
      have hgap : gap.length = gap'.length := by omega
      -- Both readings of the middle list agree gap by gap.
      rw [append_assoc, append_assoc] at heq
      obtain ⟨rfl, htail⟩ := append_inj heq hgap
      rw [hpart.2] at htail
      obtain rfl : ys' = ys'' := append_cancel_left htail
      refine ⟨gap, xs', zs', rfl, rfl, hbefore, hafter', ?_⟩
      rw [← hpart.1, ← hpart.2] at hrest'
      exact ih hrest hrest'

end Microide.Lib
