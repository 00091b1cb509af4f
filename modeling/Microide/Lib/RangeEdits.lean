/-
Range edits of one list, all at once.

Edits whose ranges refer to one list can be made at once: at each position come the texts put in
there, in the order of the edits, then the text of the range that begins there, then the element
that stands there unless a range covers it. Disjoint edits made one by one, the highest first,
make the same list.

**Main results.** `foldl_apply_eq_simultaneous`; `simultaneous_congr`: only the order of the
texts put in at one place matters.
-/

import Mathlib

namespace Microide.Lib

open List

variable {α : Type*}

/-- `text` in place of the elements from `start` up to `stop`. -/
structure RangeEdit (α : Type*) where
  start : Nat
  stop : Nat
  text : List α

namespace RangeEdit

def apply (list : List α) (edit : RangeEdit α) : List α :=
  list.take edit.start ++ edit.text ++ list.drop edit.stop

/-- Some element is in both ranges. -/
def SharesElement (a b : RangeEdit α) : Prop :=
  ∃ k, (a.start ≤ k ∧ k < a.stop) ∧ b.start ≤ k ∧ k < b.stop

/-- A text put in strictly inside another's range. -/
def InsertsInside (a b : RangeEdit α) : Prop :=
  a.start = a.stop ∧ b.start < a.start ∧ a.start < b.stop

def Separate (a b : RangeEdit α) : Prop :=
  ¬a.SharesElement b ∧ ¬a.InsertsInside b ∧ ¬b.InsertsInside a

variable {a b : RangeEdit α}

theorem Separate.symm (separate : a.Separate b) : b.Separate a := by
  refine ⟨?_, separate.2.2, separate.2.1⟩
  rintro ⟨k, inA, inB⟩
  exact separate.1 ⟨k, inB, inA⟩

/-- Of two edits that begin at one place the shorter is compared with the longer. -/
theorem separate_iff (ha : a.start ≤ a.stop) (hb : b.start ≤ b.stop)
    (order : b.start < a.start ∨ b.start = a.start ∧ b.stop ≤ a.stop) :
    a.Separate b ↔ b.stop ≤ a.start := by
  constructor
  · rintro ⟨share, inside, -⟩
    by_contra past
    rcases Nat.eq_or_lt_of_le ha with empty | some_
    · exact inside ⟨empty, by omega, by omega⟩
    · exact share ⟨a.start, ⟨le_rfl, some_⟩, by omega, by omega⟩
  · intro before
    refine ⟨?_, ?_, ?_⟩
    · rintro ⟨k, inA, inB⟩
      omega
    · rintro ⟨-, -, inside⟩
      omega
    · rintro ⟨-, inside, -⟩
      omega

end RangeEdit

section At

variable (edits : List (RangeEdit α)) (k : Nat)

/-- The texts put in at a position. -/
def insertedAt : List α :=
  (edits.filter fun edit => edit.start = k ∧ edit.stop = k).flatMap RangeEdit.text

/-- The text in place of the range that begins at a position. -/
def replacedAt : List α :=
  (edits.filter fun edit => edit.start = k ∧ k < edit.stop).flatMap RangeEdit.text

def coveredAt : Bool := edits.any fun edit => edit.start ≤ k && k < edit.stop

/-- What stands at a position once the edits are made. -/
def standsAt (list : List α) : List α :=
  insertedAt edits k ++ replacedAt edits k ++ if coveredAt edits k then [] else list[k]?.toList

end At

/-- The edits made at once, read from a position on. -/
def simultaneousFrom (list : List α) (edits : List (RangeEdit α)) (k : Nat) : List α :=
  (List.range' k (list.length + 1 - k)).flatMap fun k => standsAt edits k list

def simultaneous (list : List α) (edits : List (RangeEdit α)) : List α :=
  simultaneousFrom list edits 0

variable {list : List α} {edits : List (RangeEdit α)}

theorem standsAt_untouched {k : Nat} (above : ∀ edit ∈ edits, k < edit.start) :
    standsAt edits k list = list[k]?.toList := by
  have inserted : insertedAt edits k = [] := by
    unfold insertedAt
    rw [filter_eq_nil_iff.mpr, flatMap_nil]
    intro edit mem
    have := above edit mem
    simp only [decide_eq_true_eq]
    omega
  have replaced : replacedAt edits k = [] := by
    unfold replacedAt
    rw [filter_eq_nil_iff.mpr, flatMap_nil]
    intro edit mem
    have := above edit mem
    simp only [decide_eq_true_eq]
    omega
  have covered : coveredAt edits k = false := by
    refine any_eq_false.mpr fun edit mem => ?_
    have := above edit mem
    simp only [Bool.and_eq_true, decide_eq_true_eq]
    omega
  simp [standsAt, inserted, replaced, covered]

theorem simultaneousFrom_succ {k : Nat} (inside : k ≤ list.length) :
    simultaneousFrom list edits k = standsAt edits k list ++ simultaneousFrom list edits (k + 1) := by
  unfold simultaneousFrom
  rw [show list.length + 1 - k = (list.length + 1 - (k + 1)) + 1 by omega, range'_succ,
    flatMap_cons]

/-- Before the edits the list is as it was. -/
theorem simultaneousFrom_untouched {b : Nat} (above : ∀ edit ∈ edits, b ≤ edit.start)
    (inside : b ≤ list.length) {a : Nat} (le : a ≤ b) :
    simultaneousFrom list edits a = (list.take b).drop a ++ simultaneousFrom list edits b := by
  induction le using Nat.decreasingInduction with
  | self => simp
  | of_succ a lt ih =>
    have stands : standsAt edits a list = list[a]?.toList :=
      standsAt_untouched fun edit mem => Nat.lt_of_lt_of_le lt (above edit mem)
    rw [simultaneousFrom_succ (by omega), stands, ih, ← append_assoc]
    conv_rhs => rw [drop_eq_getElem_cons (by rw [length_take]; omega)]
    rw [getElem?_eq_getElem (by omega), getElem_take]
    rfl

theorem simultaneousFrom_nil {k : Nat} (inside : k ≤ list.length) :
    simultaneousFrom list [] k = list.drop k := by
  have untouched : ∀ edit ∈ ([] : List (RangeEdit α)), list.length ≤ edit.start :=
    fun _ mem => nomatch mem
  have last : simultaneousFrom list [] list.length = [] := by
    rw [simultaneousFrom_succ le_rfl, simultaneousFrom, Nat.sub_self,
      standsAt_untouched fun _ mem => absurd mem not_mem_nil, getElem?_eq_none le_rfl]
    rfl
  rw [simultaneousFrom_untouched untouched le_rfl inside, last, take_length, append_nil]

theorem simultaneous_nil (list : List α) : simultaneous list [] = list :=
  simultaneousFrom_nil (Nat.zero_le _)

variable {edit : RangeEdit α}

/-- An edit that begins elsewhere and covers nothing there changes nothing there. -/
theorem standsAt_cons {k : Nat} (elsewhere : edit.start ≠ k)
    (clear : ¬(edit.start ≤ k ∧ k < edit.stop)) :
    standsAt (edit :: edits) k list = standsAt edits k list := by
  have inserted : insertedAt (edit :: edits) k = insertedAt edits k := by
    unfold insertedAt
    rw [filter_cons_of_neg (by simp [elsewhere])]
  have replaced : replacedAt (edit :: edits) k = replacedAt edits k := by
    unfold replacedAt
    rw [filter_cons_of_neg (by simp [elsewhere])]
  have covered : coveredAt (edit :: edits) k = coveredAt edits k := by
    unfold coveredAt
    rw [any_cons, Bool.or_eq_right_iff_imp]
    intro covers
    simp only [Bool.and_eq_true, decide_eq_true_eq] at covers
    exact absurd covers clear
  rw [standsAt, standsAt, inserted, replaced, covered]

/-- Text put in before what stands at the position already. -/
theorem standsAt_insertion (empty : edit.start = edit.stop) :
    standsAt (edit :: edits) edit.start list = edit.text ++ standsAt edits edit.start list := by
  have inserted : insertedAt (edit :: edits) edit.start =
      edit.text ++ insertedAt edits edit.start := by
    unfold insertedAt
    rw [filter_cons_of_pos (by simp [empty]), flatMap_cons]
  have replaced : replacedAt (edit :: edits) edit.start = replacedAt edits edit.start := by
    unfold replacedAt
    rw [filter_cons_of_neg (by simp [empty])]
  have covered : coveredAt (edit :: edits) edit.start = coveredAt edits edit.start := by
    unfold coveredAt
    rw [any_cons, Bool.or_eq_right_iff_imp]
    intro covers
    simp only [Bool.and_eq_true, decide_eq_true_eq] at covers
    omega
  rw [standsAt, standsAt, inserted, replaced, covered, append_assoc, append_assoc, append_assoc]

/-- A range that begins at a position no other edit touches. -/
theorem standsAt_replacement (some_ : edit.start < edit.stop)
    (first : ∀ later ∈ edits, edit.stop ≤ later.start) :
    standsAt (edit :: edits) edit.start list = edit.text := by
  have inserted : insertedAt (edit :: edits) edit.start = [] := by
    unfold insertedAt
    rw [filter_eq_nil_iff.mpr, flatMap_nil]
    intro other mem
    simp only [decide_eq_true_eq]
    rcases mem_cons.mp mem with rfl | later
    · omega
    · have := first other later
      omega
  have replaced : replacedAt (edit :: edits) edit.start = edit.text := by
    unfold replacedAt
    rw [filter_cons_of_pos (by simp [some_]), filter_eq_nil_iff.mpr, flatMap_cons,
      flatMap_nil, append_nil]
    intro other later
    have := first other later
    simp only [decide_eq_true_eq]
    omega
  have covered : coveredAt (edit :: edits) edit.start = true := by
    simp [coveredAt, some_]
  rw [standsAt, inserted, replaced, covered, if_pos rfl, nil_append, append_nil]

/-- Inside a range nothing stands. -/
theorem standsAt_covered {k : Nat} (above : edit.start < k) (below : k < edit.stop)
    (first : ∀ later ∈ edits, edit.stop ≤ later.start) : standsAt (edit :: edits) k list = [] := by
  have none : ∀ other ∈ edit :: edits, other.start ≠ k := by
    intro other mem
    rcases mem_cons.mp mem with rfl | later
    · omega
    · have := first other later
      omega
  have inserted : insertedAt (edit :: edits) k = [] := by
    unfold insertedAt
    rw [filter_eq_nil_iff.mpr, flatMap_nil]
    intro other mem
    simp [none other mem]
  have replaced : replacedAt (edit :: edits) k = [] := by
    unfold replacedAt
    rw [filter_eq_nil_iff.mpr, flatMap_nil]
    intro other mem
    simp [none other mem]
  have covered : coveredAt (edit :: edits) k = true := by
    simp [coveredAt, above.le, below]
  rw [standsAt, inserted, replaced, covered, if_pos rfl]
  rfl

/-- From its stop on an edit that comes first leaves no trace. -/
theorem simultaneousFrom_cons {k : Nat} (behind : edit.stop ≤ k) (moved : edit.start < k) :
    simultaneousFrom list (edit :: edits) k = simultaneousFrom list edits k := by
  refine flatMap_congr fun i mem => standsAt_cons ?_ ?_
  · have := (mem_range'_1.mp mem).1
    omega
  · have := (mem_range'_1.mp mem).1
    omega

/-- A range and what it covers give way to its text. -/
theorem simultaneousFrom_start (ordered : edit.start ≤ edit.stop) (inside : edit.stop ≤ list.length)
    (first : ∀ later ∈ edits, edit.stop ≤ later.start) :
    simultaneousFrom list (edit :: edits) edit.start =
      edit.text ++ simultaneousFrom list edits edit.stop := by
  rcases Nat.eq_or_lt_of_le ordered with empty | some_
  · rw [simultaneousFrom_succ (by omega), standsAt_insertion empty, append_assoc,
      simultaneousFrom_cons (by omega) (Nat.lt_succ_self _), ← empty,
      ← simultaneousFrom_succ (by omega)]
  · rw [simultaneousFrom_succ (by omega), standsAt_replacement some_ first]
    have covered : ∀ k, k ≤ edit.stop → edit.start < k →
        simultaneousFrom list (edit :: edits) k = simultaneousFrom list (edit :: edits) edit.stop := by
      intro k le
      induction le using Nat.decreasingInduction with
      | self => exact fun _ => rfl
      | of_succ k lt ih =>
        intro above
        rw [simultaneousFrom_succ (by omega), standsAt_covered above lt first, nil_append,
          ih (by omega)]
    rw [covered _ some_ (Nat.lt_succ_self _), simultaneousFrom_cons le_rfl some_]

/-- One more edit, before all others. -/
theorem simultaneous_cons (ordered : edit.start ≤ edit.stop) (inside : edit.stop ≤ list.length)
    (first : ∀ later ∈ edits, edit.stop ≤ later.start) :
    simultaneous list (edit :: edits) = edit.apply (simultaneous list edits) := by
  have all : ∀ other ∈ edit :: edits, edit.start ≤ other.start := by
    intro other mem
    rcases mem_cons.mp mem with rfl | later
    · exact le_rfl
    · exact ordered.trans (first other later)
  have before : (list.take edit.stop).length = edit.stop := length_take_of_le inside
  rw [simultaneous, simultaneousFrom_untouched all (by omega) (Nat.zero_le _), drop_zero,
    simultaneousFrom_start ordered inside first, simultaneous,
    simultaneousFrom_untouched first inside (Nat.zero_le _), drop_zero, RangeEdit.apply,
    drop_left' before, take_append_of_le_length (by omega), take_take,
    Nat.min_eq_left ordered, append_assoc]

/-- Edits made one by one, each before the ones made already, are the edits made at once. -/
theorem foldl_apply_eq_simultaneous {order : List (RangeEdit α)}
    (ordered : ∀ edit ∈ order, edit.start ≤ edit.stop ∧ edit.stop ≤ list.length)
    (descending : order.Pairwise fun high low => low.stop ≤ high.start) :
    order.foldl RangeEdit.apply list = simultaneous list order.reverse := by
  induction order using List.reverseRecOn with
  | nil => exact (simultaneous_nil list).symm
  | append_singleton order edit ih =>
    obtain ⟨earlier, -, last⟩ := pairwise_append.mp descending
    obtain ⟨le, inside⟩ := ordered edit (by simp)
    rw [foldl_append, reverse_append, reverse_singleton, singleton_append,
      simultaneous_cons le inside fun later mem =>
        last later (mem_reverse.mp mem) edit (mem_singleton_self _),
      ← ih (fun other mem => ordered other (mem_append_left _ mem)) earlier]
    rfl

/-- Only the order of the texts put in at one place, or of ranges that begin there, matters. -/
theorem simultaneous_congr {others : List (RangeEdit α)}
    (inserted : ∀ k, edits.filter (fun edit => edit.start = k ∧ edit.stop = k) =
      others.filter fun edit => edit.start = k ∧ edit.stop = k)
    (replaced : ∀ k, edits.filter (fun edit => edit.start = k ∧ k < edit.stop) =
      others.filter fun edit => edit.start = k ∧ k < edit.stop)
    (same : ∀ edit, edit ∈ edits ↔ edit ∈ others) :
    simultaneous list edits = simultaneous list others := by
  unfold simultaneous simultaneousFrom
  refine flatMap_congr fun k _ => ?_
  have covered : coveredAt edits k = coveredAt others k := by
    unfold coveredAt
    rw [Bool.eq_iff_iff, any_eq_true, any_eq_true]
    simp only [same]
  rw [standsAt, standsAt, insertedAt, insertedAt, replacedAt, replacedAt, inserted, replaced, covered]

end Microide.Lib
