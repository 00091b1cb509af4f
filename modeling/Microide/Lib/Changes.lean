/-
Ordered changes of a list.

A change replaces the range `[start, stop)` of a base list by `lines`; an empty range is
an insertion, empty `lines` a deletion. A list of changes is read against the *same*
base: `patch base lo hi cs` is the range `[lo, hi)` of the base with every change of
`cs` made at once. `Fits lo hi cs` says that the changes come in order, do not overlap
and stay inside `[lo, hi]`.

**Main result.** `patch_append`: a list of changes can be cut at any position between two
of them, and the two parts patch their own ranges.
-/

import Microide.Lib.EditScript

namespace Microide.Lib

variable {α : Type*}

/-- Replace the range `[start, stop)` by `lines`. -/
structure Change (α : Type*) where
  start : Nat
  stop : Nat
  lines : List α
  deriving DecidableEq

/-- The range `[lo, hi)` of `base` with the changes made. -/
def patch (base : List α) : Nat → Nat → List (Change α) → List α
  | lo, hi, [] => slice base lo hi
  | lo, hi, c :: cs => slice base lo c.start ++ c.lines ++ patch base c.stop hi cs

/-- The changes are ordered, do not overlap and lie in `[lo, hi]`. -/
def Fits : Nat → Nat → List (Change α) → Prop
  | lo, hi, [] => lo ≤ hi
  | lo, hi, c :: cs => lo ≤ c.start ∧ c.start ≤ c.stop ∧ Fits c.stop hi cs

@[simp] theorem patch_nil (base : List α) (lo hi : Nat) : patch base lo hi [] = slice base lo hi :=
  rfl

theorem patch_cons (base : List α) (lo hi : Nat) (c : Change α) (cs : List (Change α)) :
    patch base lo hi (c :: cs) = slice base lo c.start ++ c.lines ++ patch base c.stop hi cs :=
  rfl

namespace Fits

variable {lo hi : Nat} {cs ds : List (Change α)}

section

variable (h : Fits lo hi cs)

include h

theorem le : lo ≤ hi := by
  induction cs generalizing lo with
  | nil => exact h
  | cons c cs ih =>
      have hrest := ih h.2.2
      have := h.1
      have := h.2.1
      omega

/-- Every change of a fitting list lies inside the range. -/
theorem mem {c : Change α} (hc : c ∈ cs) : lo ≤ c.start ∧ c.start ≤ c.stop ∧ c.stop ≤ hi := by
  induction cs generalizing lo with
  | nil => cases hc
  | cons d cs ih =>
      rcases List.mem_cons.mp hc with rfl | hc
      · exact ⟨h.1, h.2.1, h.2.2.le⟩
      · obtain ⟨hstart, hmid, hstop⟩ := ih h.2.2 hc
        have := h.1
        have := h.2.1
        exact ⟨by omega, hmid, hstop⟩

/-- The range may be widened on either side. -/
theorem mono {lo' hi' : Nat} (hlo : lo' ≤ lo) (hhi : hi ≤ hi') : Fits lo' hi' cs := by
  induction cs generalizing lo lo' with
  | nil => exact Nat.le_trans hlo (Nat.le_trans h hhi)
  | cons c cs ih => exact ⟨Nat.le_trans hlo h.1, h.2.1, ih h.2.2 (Nat.le_refl _)⟩

/-- The range may be narrowed as long as every change stays inside. -/
theorem restrict {lo' hi' : Nat} (hle : lo' ≤ hi') (hin : ∀ c ∈ cs, lo' ≤ c.start ∧ c.stop ≤ hi') :
    Fits lo' hi' cs := by
  induction cs generalizing lo lo' with
  | nil => exact hle
  | cons c cs ih =>
      obtain ⟨hc, hcs⟩ := List.forall_mem_cons.mp hin
      refine ⟨hc.1, h.2.1, ih h.2.2 hc.2 ?_⟩
      intro d hd
      exact ⟨(h.2.2.mem hd).1, (hcs d hd).2⟩

end

theorem append {mid : Nat} (hcs : Fits lo mid cs) (hds : Fits mid hi ds) : Fits lo hi (cs ++ ds) := by
  induction cs generalizing lo with
  | nil => exact hds.mono hcs (Nat.le_refl _)
  | cons c cs ih => exact ⟨hcs.1, hcs.2.1, ih hcs.2.2⟩

theorem append_left (h : Fits lo hi (cs ++ ds)) : Fits lo hi cs := by
  induction cs generalizing lo with
  | nil => exact h.le
  | cons c cs ih => exact ⟨h.1, h.2.1, ih h.2.2⟩

theorem append_right (h : Fits lo hi (cs ++ ds)) : Fits lo hi ds := by
  induction cs generalizing lo with
  | nil => exact h
  | cons c cs ih => exact (ih h.2.2).mono (Nat.le_trans h.1 h.2.1) (Nat.le_refl _)

end Fits

/-- A gap before the first change is copied. -/
theorem patch_gap (base : List α) {lo lo' hi : Nat} {cs : List (Change α)} (hle : lo ≤ lo')
    (h : Fits lo' hi cs) : patch base lo hi cs = slice base lo lo' ++ patch base lo' hi cs := by
  cases cs with
  | nil => rw [patch_nil, patch_nil, slice_append base hle h]
  | cons c cs => rw [patch_cons, patch_cons, ← slice_append base hle h.1]; simp

/-- **Changes can be cut at any position between two of them.** -/
theorem patch_append (base : List α) {lo mid hi : Nat} {cs ds : List (Change α)}
    (hcs : Fits lo mid cs) (hds : Fits mid hi ds) :
    patch base lo hi (cs ++ ds) = patch base lo mid cs ++ patch base mid hi ds := by
  induction cs generalizing lo with
  | nil => rw [List.nil_append, patch_nil, patch_gap base hcs hds]
  | cons c cs ih =>
      rw [List.cons_append, patch_cons, patch_cons, ih hcs.2.2]
      simp

/-- Patching a list that only differs past the range gives the same. -/
theorem patch_append_base (base more : List α) {lo hi : Nat} {cs : List (Change α)}
    (h : Fits lo hi cs) (hlen : hi ≤ base.length) :
    patch (base ++ more) lo hi cs = patch base lo hi cs := by
  induction cs generalizing lo with
  | nil => rw [patch_nil, patch_nil, slice_append_of_le base more hlen]
  | cons c cs ih =>
      have hstart : c.start ≤ base.length := by
        have := h.2.1
        have := h.2.2.le
        omega
      rw [patch_cons, patch_cons, ih h.2.2, slice_append_of_le base more hstart]

end Microide.Lib
