/-
Edit scripts between two lists.

A script walks a source and a target list from left to right: it keeps a pair, drops
a source element or adds a target element. `Aligns R s xs ys` says that the script
reads exactly `xs` on its source side and exactly `ys` on its target side, and that
every kept pair is related by `R`. Whatever produces a script, this is what a consumer
relies on: nothing of either list is skipped, repeated or reordered.

**What is here.** The alphabet `Edit`, the two readings `source` and `target`, the
predicate `Aligns` with its closure under concatenation, and `Placed`, the same fact
in terms of the two running positions a consumer counts along the script.
-/

import Mathlib.Data.List.Forall2
import Microide.Lib.Slice

namespace Microide.Lib

open List

variable {α β : Type*}

/-- One step of an edit script. -/
inductive Edit (α β : Type*) where
  | keep (a : α) (b : β)
  | drop (a : α)
  | add (b : β)

namespace Edit

/-- What a step consumes of the source list. -/
def source? : Edit α β → Option α
  | .keep a _ => some a
  | .drop a => some a
  | .add _ => none

/-- What a step contributes to the target list. -/
def target? : Edit α β → Option β
  | .keep _ b => some b
  | .drop _ => none
  | .add b => some b

@[simp] theorem source?_keep (a : α) (b : β) : (keep a b).source? = some a := rfl
@[simp] theorem source?_drop (a : α) : (drop a : Edit α β).source? = some a := rfl
@[simp] theorem source?_add (b : β) : (add b : Edit α β).source? = none := rfl
@[simp] theorem target?_keep (a : α) (b : β) : (keep a b).target? = some b := rfl
@[simp] theorem target?_drop (a : α) : (drop a : Edit α β).target? = none := rfl
@[simp] theorem target?_add (b : β) : (add b : Edit α β).target? = some b := rfl

end Edit

/-- The source list a script reads. -/
def source (s : List (Edit α β)) : List α :=
  s.filterMap Edit.source?

/-- The target list a script writes. -/
def target (s : List (Edit α β)) : List β :=
  s.filterMap Edit.target?

@[simp] theorem source_nil : source ([] : List (Edit α β)) = [] := rfl
@[simp] theorem source_keep (a : α) (b : β) (s) : source (.keep a b :: s) = a :: source s := rfl
@[simp] theorem source_drop (a : α) (s : List (Edit α β)) :
    source (.drop a :: s) = a :: source s := rfl
@[simp] theorem source_add (b : β) (s : List (Edit α β)) : source (.add b :: s) = source s := rfl
@[simp] theorem target_nil : target ([] : List (Edit α β)) = [] := rfl
@[simp] theorem target_keep (a : α) (b : β) (s) : target (.keep a b :: s) = b :: target s := rfl
@[simp] theorem target_drop (a : α) (s : List (Edit α β)) : target (.drop a :: s) = target s := rfl
@[simp] theorem target_add (b : β) (s : List (Edit α β)) :
    target (.add b :: s) = b :: target s := rfl

@[simp] theorem source_append (s t : List (Edit α β)) : source (s ++ t) = source s ++ source t :=
  filterMap_append

@[simp] theorem target_append (s t : List (Edit α β)) : target (s ++ t) = target s ++ target t :=
  filterMap_append

/-- The pairs a script keeps. -/
def kept (s : List (Edit α β)) : List (α × β) :=
  s.filterMap fun
    | .keep a b => some (a, b)
    | .drop _ => none
    | .add _ => none

/-- The kept pairs are, in order, among what the script reads and among what it writes. -/
theorem kept_sublist (s : List (Edit α β)) :
    ((kept s).map Prod.fst).Sublist (source s) ∧ ((kept s).map Prod.snd).Sublist (target s) := by
  induction s with
  | nil => exact ⟨.slnil, .slnil⟩
  | cons step s ih =>
    cases step with
    | keep a b => exact ⟨ih.1.cons_cons a, ih.2.cons_cons b⟩
    | drop a => exact ⟨ih.1.cons a, ih.2⟩
    | add b => exact ⟨ih.1, ih.2.cons b⟩

theorem mem_kept {s : List (Edit α β)} {a : α} {b : β} : (a, b) ∈ kept s ↔ Edit.keep a b ∈ s := by
  induction s with
  | nil => simp [kept]
  | cons step s ih => cases step <;> simp_all [kept]

/-- The script reads `xs`, writes `ys`, and keeps only related pairs. -/
structure Aligns (R : α → β → Prop) (s : List (Edit α β)) (xs : List α) (ys : List β) : Prop where
  source_eq : source s = xs
  target_eq : target s = ys
  kept : ∀ a b, Edit.keep a b ∈ s → R a b

namespace Aligns

variable {R : α → β → Prop} {s t : List (Edit α β)} {xs xs' : List α} {ys ys' : List β}

theorem nil : Aligns R ([] : List (Edit α β)) [] [] :=
  ⟨rfl, rfl, by simp⟩

/-- **Scripts compose at a seam.** Every routine that hands the rest of its range to
another one is justified by this alone. -/
theorem append (hs : Aligns R s xs ys) (ht : Aligns R t xs' ys') :
    Aligns R (s ++ t) (xs ++ xs') (ys ++ ys') := by
  refine ⟨?_, ?_, ?_⟩
  · rw [source_append, hs.source_eq, ht.source_eq]
  · rw [target_append, hs.target_eq, ht.target_eq]
  · intro a b hab
    rcases mem_append.mp hab with h | h
    · exact hs.kept a b h
    · exact ht.kept a b h

theorem keep {a : α} {b : β} (h : R a b) : Aligns R [Edit.keep a b] [a] [b] := by
  refine ⟨rfl, rfl, ?_⟩
  intro a' b' hab
  simp only [mem_singleton] at hab
  obtain ⟨rfl, rfl⟩ := hab
  exact h

theorem cons_keep {a : α} {b : β} (h : R a b) (hs : Aligns R s xs ys) :
    Aligns R (.keep a b :: s) (a :: xs) (b :: ys) :=
  (keep h).append hs

theorem cons_drop (a : α) (hs : Aligns R s xs ys) : Aligns R (.drop a :: s) (a :: xs) ys :=
  (⟨rfl, rfl, by simp⟩ : Aligns R [Edit.drop a] [a] []).append hs

theorem cons_add (b : β) (hs : Aligns R s xs ys) : Aligns R (.add b :: s) xs (b :: ys) :=
  (⟨rfl, rfl, by simp⟩ : Aligns R [Edit.add b] [] [b]).append hs

/-- Dropping a whole list. -/
theorem drops (xs : List α) : Aligns R (xs.map Edit.drop) xs ([] : List β) := by
  induction xs with
  | nil => exact nil
  | cons a xs ih => exact cons_drop a ih

/-- Adding a whole list. -/
theorem adds (ys : List β) : Aligns R (ys.map Edit.add) ([] : List α) ys := by
  induction ys with
  | nil => exact nil
  | cons b ys ih => exact cons_add b ih

/-- Keeping two lists of one length pair by pair. -/
theorem keeps (h : List.Forall₂ R xs ys) : Aligns R (List.zipWith Edit.keep xs ys) xs ys := by
  induction h with
  | nil => exact nil
  | cons hab _ ih => exact cons_keep hab ih

end Aligns

/-! ### Positions along a script

A consumer of a script counts: it keeps the number of source elements and of target
elements it has passed. `placed` attaches these two counters to every step. -/

/-- The steps of `s` with the source and the target position at which each stands,
counting from `i` and `j`. -/
def placed (i j : Nat) : List (Edit α β) → List (Edit α β × Nat × Nat)
  | [] => []
  | .keep a b :: s => (.keep a b, i, j) :: placed (i + 1) (j + 1) s
  | .drop a :: s => (.drop a, i, j) :: placed (i + 1) j s
  | .add b :: s => (.add b, i, j) :: placed i (j + 1) s

/-- The source positions a script consumes, in the order it consumes them. -/
def sourcePositions (s : List (Edit α β)) : List Nat :=
  (placed 0 0 s).filterMap fun p => p.1.source?.map fun _ => p.2.1

/-- The target positions a script writes, in the order it writes them. -/
def targetPositions (s : List (Edit α β)) : List Nat :=
  (placed 0 0 s).filterMap fun p => p.1.target?.map fun _ => p.2.2

theorem placed_source (s : List (Edit α β)) (i j : Nat) :
    ((placed i j s).filterMap fun p => p.1.source?.map fun _ => p.2.1)
      = List.range' i (source s).length := by
  induction s generalizing i j with
  | nil => rfl
  | cons e s ih =>
      cases e <;> simp [placed, range'_succ, filterMap_cons, ih]

theorem placed_target (s : List (Edit α β)) (i j : Nat) :
    ((placed i j s).filterMap fun p => p.1.target?.map fun _ => p.2.2)
      = List.range' j (target s).length := by
  induction s generalizing i j with
  | nil => rfl
  | cons e s ih =>
      cases e <;> simp [placed, range'_succ, filterMap_cons, ih]

theorem mem_of_mem_placed {s : List (Edit α β)} {e : Edit α β} {i j k l : Nat}
    (h : (e, k, l) ∈ placed i j s) : e ∈ s := by
  induction s generalizing i j with
  | nil => simp [placed] at h
  | cons step s ih =>
      cases step <;>
        · simp only [placed, mem_cons, Prod.mk.injEq] at h
          rcases h with ⟨rfl, -, -⟩ | h
          · exact mem_cons_self
          · exact mem_cons_of_mem _ (ih h)

/-- A step that stands at `(i, j)` reads the source's element `i` and writes the
target's element `j`. -/
theorem placed_elements (s : List (Edit α β)) (i j : Nat) :
    ∀ p ∈ placed i j s, ∃ di dj, p.2.1 = i + di ∧ p.2.2 = j + dj ∧
      (∀ a, p.1.source? = some a → (source s)[di]? = some a) ∧
      (∀ b, p.1.target? = some b → (target s)[dj]? = some b) := by
  induction s generalizing i j with
  | nil => simp [placed]
  | cons e s ih =>
      intro p hp
      cases e with
      | keep a b =>
          simp only [placed, mem_cons] at hp
          rcases hp with rfl | hp
          · exact ⟨0, 0, rfl, rfl, by simp, by simp⟩
          · obtain ⟨di, dj, hi, hj, hs, ht⟩ := ih _ _ p hp
            exact ⟨di + 1, dj + 1, by omega, by omega, by simpa using hs,
              by simpa using ht⟩
      | drop a =>
          simp only [placed, mem_cons] at hp
          rcases hp with rfl | hp
          · exact ⟨0, 0, rfl, rfl, by simp, by simp⟩
          · obtain ⟨di, dj, hi, hj, hs, ht⟩ := ih _ _ p hp
            exact ⟨di + 1, dj, by omega, hj, by simpa using hs,
              by simpa using ht⟩
      | add b =>
          simp only [placed, mem_cons] at hp
          rcases hp with rfl | hp
          · exact ⟨0, 0, rfl, rfl, by simp, by simp⟩
          · obtain ⟨di, dj, hi, hj, hs, ht⟩ := ih _ _ p hp
            exact ⟨di, dj + 1, hi, by omega, by simpa using hs,
              by simpa using ht⟩

/-! ### Matching ends

Two lists that agree on a stretch at the start and on a stretch at the end: what a
differ trims before it looks at the middle. -/

/-- How many elements from the start match pairwise. -/
def commonPrefix (r : α → β → Bool) : List α → List β → Nat
  | a :: xs, b :: ys => if r a b then commonPrefix r xs ys + 1 else 0
  | _, _ => 0

/-- The lengths of the matching start and of the matching end. The end is searched in
what the start has left over, so the two never overlap. -/
def equalEnds (r : α → β → Bool) (xs : List α) (ys : List β) : Nat × Nat :=
  let start := commonPrefix r xs ys
  (start, commonPrefix r (xs.drop start).reverse (ys.drop start).reverse)

theorem commonPrefix_le (r : α → β → Bool) (xs : List α) (ys : List β) :
    commonPrefix r xs ys ≤ xs.length ∧ commonPrefix r xs ys ≤ ys.length := by
  induction xs generalizing ys with
  | nil => simp [commonPrefix]
  | cons a xs ih =>
      cases ys with
      | nil => simp [commonPrefix]
      | cons b ys =>
          have h := ih ys
          simp only [commonPrefix, length_cons]
          split <;> omega

theorem forall₂_commonPrefix (r : α → β → Bool) (xs : List α) (ys : List β) :
    List.Forall₂ (fun a b => r a b = true)
      (xs.take (commonPrefix r xs ys)) (ys.take (commonPrefix r xs ys)) := by
  induction xs generalizing ys with
  | nil => simp [commonPrefix]
  | cons a xs ih =>
      cases ys with
      | nil => simp [commonPrefix]
      | cons b ys =>
          simp only [commonPrefix]
          split
          · next hab => exact List.Forall₂.cons hab (ih ys)
          · exact List.Forall₂.nil

/-- After the common start the lists go on differently. -/
theorem commonPrefix_stops (r : α → β → Bool) (xs : List α) (ys : List β) {a : α} {b : β}
    (ha : (xs.drop (commonPrefix r xs ys)).head? = some a)
    (hb : (ys.drop (commonPrefix r xs ys)).head? = some b) : r a b = false := by
  induction xs generalizing ys with
  | nil => simp at ha
  | cons x xs ih =>
      cases ys with
      | nil => simp at hb
      | cons y ys =>
          simp only [commonPrefix] at ha hb
          split at ha
          · next hxy =>
            rw [if_pos hxy] at hb
            exact ih ys ha hb
          · next hxy =>
            rw [if_neg hxy] at hb
            obtain rfl : x = a := by simpa using ha
            obtain rfl : y = b := by simpa using hb
            simpa using hxy

/-- A list starts with all of itself. -/
theorem equalEnds_self (r : α → α → Bool) (hr : ∀ a, r a a = true) (xs : List α) :
    equalEnds r xs xs = (xs.length, 0) := by
  have hstart : commonPrefix r xs xs = xs.length := by
    induction xs with
    | nil => rfl
    | cons a xs ih => simp [commonPrefix, hr, ih]
  simp [equalEnds, hstart, commonPrefix]

theorem equalEnds_le (r : α → β → Bool) (xs : List α) (ys : List β) :
    (equalEnds r xs ys).1 + (equalEnds r xs ys).2 ≤ xs.length ∧
      (equalEnds r xs ys).1 + (equalEnds r xs ys).2 ≤ ys.length := by
  have hstart := commonPrefix_le r xs ys
  have hend := commonPrefix_le r (xs.drop (commonPrefix r xs ys)).reverse
    (ys.drop (commonPrefix r xs ys)).reverse
  simp only [length_reverse, length_drop] at hend
  simp only [equalEnds]
  omega

theorem forall₂_equalEnds_fst (r : α → β → Bool) (xs : List α) (ys : List β) :
    List.Forall₂ (fun a b => r a b = true)
      (xs.take (equalEnds r xs ys).1) (ys.take (equalEnds r xs ys).1) :=
  forall₂_commonPrefix r xs ys

theorem forall₂_equalEnds_snd (r : α → β → Bool) (xs : List α) (ys : List β) :
    List.Forall₂ (fun a b => r a b = true)
      (xs.drop (xs.length - (equalEnds r xs ys).2))
      (ys.drop (ys.length - (equalEnds r xs ys).2)) := by
  have hstart := commonPrefix_le r xs ys
  have hend := commonPrefix_le r (xs.drop (commonPrefix r xs ys)).reverse
    (ys.drop (commonPrefix r xs ys)).reverse
  have hmatch := forall₂_commonPrefix r (xs.drop (commonPrefix r xs ys)).reverse
    (ys.drop (commonPrefix r xs ys)).reverse
  simp only [length_reverse, length_drop] at hend
  rw [take_reverse, take_reverse, forall₂_reverse_iff, drop_drop,
    drop_drop, length_drop, length_drop] at hmatch
  -- the end was searched from position `start` on; as positions of the whole lists
  -- these are the last ones
  have hx : commonPrefix r xs ys + (xs.length - commonPrefix r xs ys - (equalEnds r xs ys).2)
      = xs.length - (equalEnds r xs ys).2 := by
    simp only [equalEnds]
    omega
  have hy : commonPrefix r xs ys + (ys.length - commonPrefix r xs ys - (equalEnds r xs ys).2)
      = ys.length - (equalEnds r xs ys).2 := by
    simp only [equalEnds]
    omega
  rw [← hx, ← hy]
  exact hmatch

end Microide.Lib
