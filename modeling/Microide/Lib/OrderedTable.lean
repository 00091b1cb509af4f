/-
Ordered tables.

An ordered map as the list of its rows in strictly increasing key order; the order is a
field, so a table out of order cannot be built. Operations are stated by their rows and
characterised by what `find` answers afterwards; two tables with the same answers are equal.

**Main results.** `find_set`, `find_erase`: what an update changes; `ext_find`: a table is
its answers; `lowerBound_eq_filter`: a scan from a lower bound sees every row from it on;
`takeWhile_eq_filter_iff`: what a scan that ends at the first failure misses.
-/

import Mathlib.Algebra.Order.BigOperators.Group.List
import Mathlib.Algebra.Order.Group.Nat
import Mathlib.Data.List.Pairwise

namespace Microide.Lib

open List

/-- Rows in strictly increasing key order. -/
structure OrderedTable (κ ν : Type) [LinearOrder κ] where
  rows : List (κ × ν)
  sorted : rows.Pairwise fun a b => a.1 < b.1

namespace OrderedTable

variable {κ ν : Type} [LinearOrder κ]

def empty : OrderedTable κ ν := ⟨[], .nil⟩

def keys (t : OrderedTable κ ν) : List κ := t.rows.map Prod.fst

/-- The value at `k`. -/
def find (t : OrderedTable κ ν) (k : κ) : Option ν :=
  (t.rows.find? fun row => row.1 = k).map Prod.snd

/-- The rows from the first key not below `k`. -/
def lowerBound (t : OrderedTable κ ν) (k : κ) : List (κ × ν) :=
  t.rows.dropWhile fun row => row.1 < k

/-- Insert or assign. -/
def set (t : OrderedTable κ ν) (k : κ) (v : ν) : OrderedTable κ ν where
  rows := t.rows.filter (fun row => row.1 < k) ++ (k, v) :: t.rows.filter fun row => k < row.1
  sorted := by
    refine List.pairwise_append.mpr ⟨t.sorted.filter _, ?_, ?_⟩
    · refine List.pairwise_cons.mpr ⟨?_, t.sorted.filter _⟩
      intro row mem
      simpa using (List.mem_filter.mp mem).2
    · intro a ha b hb
      have below : a.1 < k := by simpa using (List.mem_filter.mp ha).2
      rcases List.mem_cons.mp hb with rfl | hb
      · exact below
      · exact below.trans (by simpa using (List.mem_filter.mp hb).2)

def erase (t : OrderedTable κ ν) (k : κ) : OrderedTable κ ν :=
  ⟨t.rows.filter fun row => row.1 ≠ k, t.sorted.filter _⟩

/-- Insert, which leaves a key that is already there alone. -/
def insert (t : OrderedTable κ ν) (k : κ) (v : ν) : OrderedTable κ ν :=
  match t.find k with
  | some _ => t
  | none => t.set k v

/-- Change the value at `k` in place; nothing where there is none. -/
def modify (t : OrderedTable κ ν) (k : κ) (f : ν → ν) : OrderedTable κ ν :=
  match t.find k with
  | some v => t.set k (f v)
  | none => t

/-- Change every value in place. -/
def mapValues (t : OrderedTable κ ν) (f : ν → ν) : OrderedTable κ ν where
  rows := t.rows.map fun row => (row.1, f row.2)
  sorted := List.pairwise_map.mpr t.sorted

/-! ### What `find` answers -/

theorem eq_of_mem {t : OrderedTable κ ν} {a b : κ × ν} (ha : a ∈ t.rows) (hb : b ∈ t.rows)
    (same : a.1 = b.1) : a = b := by
  have symm : Std.Symm fun a b : κ × ν => a.1 ≠ b.1 := ⟨fun _ _ ne => ne.symm⟩
  have apart : t.rows.Pairwise fun a b => a.1 ≠ b.1 := t.sorted.imp fun lt => lt.ne
  by_contra ne
  exact apart.forall ha hb ne same

/-- A table answers `v` at `k` exactly where it holds the row. -/
theorem find_eq_some {t : OrderedTable κ ν} {k : κ} {v : ν} :
    t.find k = some v ↔ (k, v) ∈ t.rows := by
  unfold find
  constructor
  · intro h
    obtain ⟨row, found, rfl⟩ := Option.map_eq_some_iff.mp h
    have key : row.1 = k := by simpa using find?_some found
    rw [← key]
    exact mem_of_find?_eq_some found
  · intro mem
    have some : (t.rows.find? fun row => decide (row.1 = k)).isSome :=
      find?_isSome.mpr ⟨_, mem, by simp⟩
    obtain ⟨row, found⟩ := Option.isSome_iff_exists.mp some
    have key : row.1 = k := by simpa using find?_some found
    have same := eq_of_mem (mem_of_find?_eq_some found) mem key
    simp [found, same]

theorem find_eq_none {t : OrderedTable κ ν} {k : κ} :
    t.find k = none ↔ ∀ row ∈ t.rows, row.1 ≠ k := by
  simp [find]

theorem mem_keys {t : OrderedTable κ ν} {k : κ} : k ∈ t.keys ↔ ∃ v, t.find k = some v := by
  simp [keys, find_eq_some]

theorem mem_set {t : OrderedTable κ ν} {k : κ} {v : ν} {row : κ × ν} :
    row ∈ (t.set k v).rows ↔ row = (k, v) ∨ (row ∈ t.rows ∧ row.1 ≠ k) := by
  simp only [set, mem_append, mem_cons, mem_filter, decide_eq_true_eq]
  constructor
  · rintro (⟨mem, lt⟩ | rfl | ⟨mem, lt⟩)
    · exact .inr ⟨mem, lt.ne⟩
    · exact .inl rfl
    · exact .inr ⟨mem, lt.ne'⟩
  · rintro (rfl | ⟨mem, ne⟩)
    · exact .inr (.inl rfl)
    · rcases lt_or_gt_of_ne ne with lt | lt
      · exact .inl ⟨mem, lt⟩
      · exact .inr (.inr ⟨mem, lt⟩)

theorem mem_erase {t : OrderedTable κ ν} {k : κ} {row : κ × ν} :
    row ∈ (t.erase k).rows ↔ row ∈ t.rows ∧ row.1 ≠ k := by
  simp [erase]

/-- Answers agree when the rows a key could have do. -/
private theorem find_congr {t t' : OrderedTable κ ν} {k : κ}
    (h : ∀ v, (k, v) ∈ t.rows ↔ (k, v) ∈ t'.rows) : t.find k = t'.find k := by
  apply Option.ext
  intro v
  rw [find_eq_some, find_eq_some, h]

@[simp] theorem find_empty (k : κ) : (empty : OrderedTable κ ν).find k = none := rfl

section

variable (t : OrderedTable κ ν)

include t

@[simp] theorem find_set_self (k : κ) (v : ν) : (t.set k v).find k = some v :=
  find_eq_some.mpr (mem_set.mpr (.inl rfl))

@[simp] theorem find_set_of_ne {k k' : κ} (v : ν) (ne : k' ≠ k) :
    (t.set k v).find k' = t.find k' := by
  apply find_congr
  intro w
  simp [mem_set, ne]

theorem find_set (k k' : κ) (v : ν) :
    (t.set k v).find k' = if k' = k then some v else t.find k' := by
  split
  next same => rw [same, find_set_self]
  next ne => exact find_set_of_ne t v ne

@[simp] theorem find_erase_self (k : κ) : (t.erase k).find k = none :=
  find_eq_none.mpr fun _ mem => (mem_erase.mp mem).2

@[simp] theorem find_erase_of_ne {k k' : κ} (ne : k' ≠ k) : (t.erase k).find k' = t.find k' := by
  apply find_congr
  intro w
  simp [mem_erase, ne]

theorem find_erase (k k' : κ) : (t.erase k).find k' = if k' = k then none else t.find k' := by
  split
  next same => rw [same, find_erase_self]
  next ne => exact find_erase_of_ne t ne

theorem rows_nodup : t.rows.Nodup :=
  t.sorted.imp fun lt same => lt.ne (congrArg Prod.fst same)

theorem keys_sorted : t.keys.Pairwise (· < ·) :=
  pairwise_map.mpr t.sorted

end

theorem erase_of_find_none {t : OrderedTable κ ν} {k : κ} (absent : t.find k = none) :
    t.erase k = t := by
  have rows : t.rows.filter (fun row => row.1 ≠ k) = t.rows :=
    filter_eq_self.mpr fun row mem => by simpa using find_eq_none.mp absent row mem
  cases t
  simpa [erase] using rows

/-- A table is its answers. -/
theorem ext_find {t t' : OrderedTable κ ν} (h : ∀ k, t.find k = t'.find k) : t = t' := by
  have members : ∀ row, row ∈ t.rows ↔ row ∈ t'.rows := by
    rintro ⟨k, v⟩
    rw [← find_eq_some, ← find_eq_some, h]
  have perm : t.rows.Perm t'.rows :=
    (perm_ext_iff_of_nodup t.rows_nodup t'.rows_nodup).mpr members
  have rows : t.rows = t'.rows :=
    perm.eq_of_pairwise (fun a b _ _ ab ba => absurd (ab.trans ba) (lt_irrefl _)) t.sorted t'.sorted
  cases t
  cases t'
  simpa using rows

/-- A key that was not there is one row more. -/
theorem set_rows_perm {t : OrderedTable κ ν} {k : κ} (v : ν) (fresh : t.find k = none) :
    (t.set k v).rows.Perm ((k, v) :: t.rows) := by
  have absent := find_eq_none.mp fresh
  refine (perm_ext_iff_of_nodup (rows_nodup _) ?_).mpr ?_
  · exact nodup_cons.mpr ⟨fun mem => absent _ mem rfl, t.rows_nodup⟩
  · intro row
    rw [mem_set, mem_cons]
    exact or_congr_right (and_iff_left_of_imp (absent row))

/-- An erased key was one row of the table. -/
theorem erase_rows_perm {t : OrderedTable κ ν} {k : κ} {v : ν} (found : t.find k = some v) :
    t.rows.Perm ((k, v) :: (t.erase k).rows) := by
  have mem := find_eq_some.mp found
  refine (perm_ext_iff_of_nodup t.rows_nodup ?_).mpr ?_
  · exact nodup_cons.mpr ⟨fun h => (mem_erase.mp h).2 rfl, rows_nodup _⟩
  · intro row
    rw [mem_cons, mem_erase]
    constructor
    · intro h
      by_cases same : row.1 = k
      · exact .inl (eq_of_mem h mem same)
      · exact .inr ⟨h, same⟩
    · rintro (rfl | ⟨h, _⟩)
      · exact mem
      · exact h

/-- Assigning a key is erasing it and inserting it anew. -/
theorem set_erase (t : OrderedTable κ ν) (k : κ) (v : ν) : (t.erase k).set k v = t.set k v := by
  refine ext_find fun k' => ?_
  rw [find_set, find_set, find_erase]
  split <;> rfl

theorem find_mapValues (t : OrderedTable κ ν) (f : ν → ν) (k : κ) :
    (t.mapValues f).find k = (t.find k).map f := by
  unfold find mapValues
  rw [find?_map, Option.map_map, Option.map_map]
  rfl

theorem find_insert (t : OrderedTable κ ν) (k k' : κ) (v : ν) :
    (t.insert k v).find k' = if k' = k then some ((t.find k).getD v) else t.find k' := by
  unfold insert
  split
  next value found =>
    split
    next same => rw [same, found, Option.getD_some]
    · rfl
  next absent => rw [find_set, absent, Option.getD_none]

/-- Of the rows of a key that is not there, the first is inserted. -/
theorem find_foldl_insert (rows : List (κ × ν)) (t : OrderedTable κ ν) (k : κ) :
    (rows.foldl (fun t row => t.insert row.1 row.2) t).find k =
      (t.find k).or ((rows.find? fun row => row.1 = k).map Prod.snd) := by
  induction rows generalizing t with
  | nil => simp
  | cons row rows ih =>
    rw [foldl_cons, ih, find_insert, find?_cons]
    by_cases same : row.1 = k
    · cases found : t.find k <;> simp [same, found]
    · simp [same, Ne.symm same]

theorem find_modify (t : OrderedTable κ ν) (k k' : κ) (f : ν → ν) :
    (t.modify k f).find k' = if k' = k then (t.find k).map f else t.find k' := by
  unfold modify
  cases found : t.find k with
  | none =>
    dsimp only
    split
    next same => rw [same, found, Option.map_none]
    · rfl
  | some v =>
    rw [find_set]
    rfl

/-- Erasing keys one after another drops their rows. -/
theorem foldl_erase_rows (ks : List κ) (t : OrderedTable κ ν) :
    (ks.foldl erase t).rows = t.rows.filter fun row => row.1 ∉ ks := by
  induction ks generalizing t with
  | nil => simp
  | cons k rest ih =>
    rw [foldl_cons, ih, erase, filter_filter]
    refine filter_congr fun row _ => ?_
    simp [Bool.and_comm]

/-! ### Scans -/

/-- A scan from a lower bound sees every row from it on. -/
theorem lowerBound_eq_filter (t : OrderedTable κ ν) (k : κ) :
    t.lowerBound k = t.rows.filter fun row => k ≤ row.1 := by
  unfold lowerBound
  obtain ⟨rows, sorted⟩ := t
  induction rows with
  | nil => rfl
  | cons row rest ih =>
    obtain ⟨above, sorted⟩ := pairwise_cons.mp sorted
    by_cases below : row.1 < k
    · simpa [below, not_le.mpr below] using ih sorted
    · have all : rest.filter (fun next => k ≤ next.1) = rest :=
        filter_eq_self.mpr fun next mem =>
          decide_eq_true ((not_lt.mp below).trans (above next mem).le)
      simp [below, not_lt.mp below, all]

end OrderedTable

variable {α : Type}

/-- A scan that ends at the first failure keeps what a filter does exactly where nothing
that fails stands before something that passes. -/
theorem takeWhile_eq_filter_iff {p : α → Bool} {l : List α} :
    l.takeWhile p = l.filter p ↔ l.Pairwise fun a b => p b → p a := by
  induction l with
  | nil => simp
  | cons a rest ih =>
    rw [pairwise_cons]
    by_cases passes : p a
    · simp [passes, ih]
    · have failing : (∀ b ∈ rest, ¬ p b) → rest.Pairwise fun a b => p b → p a := fun none =>
        pairwise_of_forall_mem_list fun _ _ b mem passes => absurd passes (none b mem)
      rw [takeWhile_cons_of_neg passes, filter_cons_of_neg passes]
      constructor
      · intro h
        have none : ∀ b ∈ rest, ¬ p b := filter_eq_nil_iff.mp h.symm
        exact ⟨fun b mem passes => absurd passes (none b mem), failing none⟩
      · rintro ⟨none, -⟩
        exact (filter_eq_nil_iff.mpr fun b mem pb => passes (none b mem pb)).symm

/-- In increasing order, later means larger. -/
theorem pairwise_iff_of_sorted [LinearOrder α] {R : α → α → Prop} {l : List α}
    (sorted : l.Pairwise (· < ·)) : l.Pairwise R ↔ ∀ a ∈ l, ∀ b ∈ l, a < b → R a b := by
  constructor
  · intro h
    have symm : Std.Symm fun a b : α => (a < b → R a b) ∧ (b < a → R b a) :=
      ⟨fun _ _ h => h.symm⟩
    have both : l.Pairwise fun a b => (a < b → R a b) ∧ (b < a → R b a) :=
      (h.and sorted).imp fun r => ⟨fun _ => r.1, fun gt => absurd (r.2.trans gt) (lt_irrefl _)⟩
    intro a ha b hb lt
    exact (both.forall ha hb lt.ne).1 lt
  · intro h
    exact sorted.imp_of_mem fun ha hb lt => h _ ha _ hb lt

/-- Increasing lists with the same members are equal. -/
theorem eq_of_sorted [LinearOrder α] {l l' : List α} (sorted : l.Pairwise (· < ·))
    (sorted' : l'.Pairwise (· < ·)) (members : ∀ a, a ∈ l ↔ a ∈ l') : l = l' := by
  have perm : l.Perm l' := (perm_ext_iff_of_nodup (sorted.imp fun lt => lt.ne)
    (sorted'.imp fun lt => lt.ne)).mpr members
  exact perm.eq_of_pairwise (fun a b _ _ ab ba => absurd (ab.trans ba) (lt_irrefl _)) sorted sorted'

/-- Two images of one list that are permutations, and pointwise comparable in weight, have
the same weights throughout. -/
theorem weight_eq_of_perm {β : Type} {l : List α} {f g : α → β} (w : β → Nat)
    (perm : (l.map f).Perm (l.map g)) (le : ∀ a ∈ l, w (f a) ≤ w (g a)) :
    ∀ a ∈ l, w (f a) = w (g a) := by
  have sums : (l.map (w ∘ f)).sum = (l.map (w ∘ g)).sum := by
    simpa using (perm.map w).sum_eq
  intro a mem
  by_contra ne
  have lt := sum_lt_sum (w ∘ f) (w ∘ g) le ⟨a, mem, lt_of_le_of_ne (le a mem) ne⟩
  exact absurd sums lt.ne

end Microide.Lib
