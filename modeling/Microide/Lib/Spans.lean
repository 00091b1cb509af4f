/-
Rows that cover spans.

A buffer of rows, each of which covers a span of positions: a row moves the position past its
span (`advance`) and may name the position it starts at (`label`). Some rows are marked; a
reader that keeps only the marks, and how far apart rows are, can tell every row's position.

**Main results.** `Chained.label_eq`: where every label is right, a row's label is where the
rows before it lead; `marksFrom_split`: a mark is one row, and the marks around it are those of
the rows around it; `filter_marksFrom`: the marks before a row are those of the rows before it.
-/

import Mathlib.Data.List.Pairwise
import Mathlib.Tactic.Conv

namespace Microide.Lib

open List Option

variable {ρ α β : Type}

/-! ### Positions -/

variable {rows : List ρ}

section Positions

variable (advance : α → ρ → α) (label : ρ → Option α)

/-- From `a` on, every label is the position its row starts at. -/
def Chained : α → List ρ → Prop
  | _, [] => True
  | a, row :: rows => (∀ i ∈ label row, i = a) ∧ Chained (advance a row) rows

variable {advance label}

theorem chained_append {a : α} {more : List ρ} : Chained advance label a (rows ++ more) ↔
      Chained advance label a rows ∧ Chained advance label (rows.foldl advance a) more := by
  induction rows generalizing a with
  | nil => simp [Chained]
  | cons row rows ih => simp [Chained, ih, and_assoc]

/-- A row's label is where the rows before it lead. -/
theorem Chained.label_eq {a : α} (chained : Chained advance label a rows) {k : Nat} {row : ρ}
    (held : rows[k]? = some row) {i : α} (labelled : label row = some i) :
    i = (rows.take k).foldl advance a := by
  induction rows generalizing a k with
  | nil => cases held
  | cons first rows ih =>
    obtain ⟨own, rest⟩ := chained
    cases k with
    | zero =>
      obtain rfl := Option.some.inj held
      exact own i labelled
    | succ k => exact ih rest held

end Positions

/-! ### Marks -/

variable {n : Nat}

section Marks

variable (mark : ρ → Option β)

/-- The marked rows, with where they are where the first row is at `n`. -/
def marksFrom : Nat → List ρ → List (Nat × β)
  | _, [] => []
  | n, row :: rows => ((mark row).map (Prod.mk n)).toList ++ marksFrom (n + 1) rows

variable {mark}

theorem marksFrom_append (n : Nat) (rows more : List ρ) : marksFrom mark n (rows ++ more) =
      marksFrom mark n rows ++ marksFrom mark (n + rows.length) more := by
  induction rows generalizing n with
  | nil => rfl
  | cons row rows ih =>
    have shift : n + 1 + rows.length = n + (rows.length + 1) := by omega
    rw [cons_append, marksFrom, marksFrom, ih, append_assoc, length_cons, shift]

theorem mem_marksFrom {place : Nat} {b : β} : (place, b) ∈ marksFrom mark n rows ↔
      ∃ k row, rows[k]? = some row ∧ mark row = some b ∧ place = n + k := by
  induction rows generalizing n with
  | nil => simp [marksFrom]
  | cons first rows ih =>
    rw [marksFrom, mem_append, ih]
    constructor
    · rintro (own | ⟨k, row, held, marked, rfl⟩)
      · obtain ⟨b', marked, same⟩ := map_eq_some_iff.mp (mem_toList.mp own)
        obtain ⟨rfl, rfl⟩ := Prod.mk.inj same
        exact ⟨0, first, rfl, marked, rfl⟩
      · exact ⟨k + 1, row, held, marked, by omega⟩
    · rintro ⟨k, row, held, marked, rfl⟩
      cases k with
      | zero =>
        obtain rfl := Option.some.inj held
        exact .inl (by simp [marked])
      | succ k => exact .inr ⟨k, row, held, marked, by omega⟩

theorem marksFrom_range : ∀ m ∈ marksFrom mark n rows, n ≤ m.1 ∧ m.1 < n + rows.length := by
  rintro ⟨place, b⟩ held
  obtain ⟨k, row, at_, _, rfl⟩ := mem_marksFrom.mp held
  have inside := (List.getElem?_eq_some_iff.mp at_).1
  omega

theorem marksFrom_shift (n added : Nat) (rows : List ρ) :
    marksFrom mark (n + added) rows = (marksFrom mark n rows).map fun m => (m.1 + added, m.2) := by
  induction rows generalizing n with
  | nil => rfl
  | cons row rows ih =>
    have next : n + added + 1 = n + 1 + added := by omega
    rw [marksFrom, marksFrom, next, ih, map_append]
    cases mark row <;> rfl

theorem marksFrom_of_unmarked (unmarked : ∀ row ∈ rows, mark row = none) :
    marksFrom mark n rows = [] := by
  induction rows generalizing n with
  | nil => rfl
  | cons row rows ih =>
    rw [marksFrom, unmarked row mem_cons_self,
      ih fun other held => unmarked other (mem_cons_of_mem _ held)]
    rfl

theorem marksFrom_sorted (n : Nat) (rows : List ρ) :
    (marksFrom mark n rows).Pairwise fun a b => a.1 < b.1 := by
  induction rows generalizing n with
  | nil => exact .nil
  | cons row rows ih =>
    refine pairwise_append.mpr ⟨?_, ih (n + 1), ?_⟩
    · cases mark row <;> simp
    · intro a own b later
      obtain ⟨_, _, rfl⟩ := map_eq_some_iff.mp (mem_toList.mp own)
      exact (marksFrom_range b later).1

/-- The marks before a row are those of the rows before it. -/
theorem filter_marksFrom (n k : Nat) (rows : List ρ) :
    (marksFrom mark n rows).filter (fun m => m.1 < n + k) = marksFrom mark n (rows.take k) := by
  conv_lhs => rw [← take_append_drop k rows, marksFrom_append, filter_append]
  have before : (marksFrom mark n (rows.take k)).filter (fun m => m.1 < n + k) =
      marksFrom mark n (rows.take k) := by
    refine filter_eq_self.mpr fun m held => ?_
    have inside := (marksFrom_range m held).2
    have short := length_take_le k rows
    exact decide_eq_true (by omega)
  have after : (marksFrom mark (n + (rows.take k).length) (rows.drop k)).filter
      (fun m => m.1 < n + k) = [] := by
    refine filter_eq_nil_iff.mpr fun m held => ?_
    by_cases inside : k ≤ rows.length
    · have start := (marksFrom_range m held).1
      rw [length_take_of_le inside] at start
      simpa using start
    · rw [drop_eq_nil_of_le (by omega)] at held
      cases held
  rw [before, after, append_nil]

/-- The marks from a row on are those of the rows from it on. -/
theorem filter_marksFrom_drop (n : Nat) {k : Nat} (inside : k ≤ rows.length) :
    (marksFrom mark n rows).filter (fun m => n + k ≤ m.1) =
      marksFrom mark (n + k) (rows.drop k) := by
  conv_lhs => rw [← take_append_drop k rows, marksFrom_append, filter_append]
  have before : (marksFrom mark n (rows.take k)).filter (fun m => n + k ≤ m.1) = [] := by
    refine filter_eq_nil_iff.mpr fun m held => ?_
    have below := (marksFrom_range m held).2
    rw [length_take_of_le inside] at below
    simpa using below
  have after : (marksFrom mark (n + (rows.take k).length) (rows.drop k)).filter
      (fun m => n + k ≤ m.1) = marksFrom mark (n + k) (rows.drop k) := by
    rw [length_take_of_le inside]
    refine filter_eq_self.mpr fun m held => ?_
    exact decide_eq_true (marksFrom_range m held).1
  rw [before, after, nil_append]

/-- A mark is one row; the marks around it are those of the rows around it. -/
theorem marksFrom_split {older newer : List (Nat × β)} {place : Nat} {b : β}
    (marks : marksFrom mark n rows = older ++ (place, b) :: newer) :
    ∃ before row after, rows = before ++ row :: after ∧ mark row = some b ∧
      place = n + before.length ∧ marksFrom mark n before = older ∧
      marksFrom mark (place + 1) after = newer := by
  have held : (place, b) ∈ marksFrom mark n rows := by simp [marks]
  obtain ⟨k, row, at_, marked, rfl⟩ := mem_marksFrom.mp held
  obtain ⟨inside, same⟩ := List.getElem?_eq_some_iff.mp at_
  have rest : rows.drop k = row :: rows.drop (k + 1) := by
    rw [drop_eq_getElem_cons inside, same]
  have short : (rows.take k).length = k := length_take_of_le (Nat.le_of_lt inside)
  have sorted : (older ++ (n + k, b) :: newer).Pairwise fun a b => a.1 < b.1 :=
    marks ▸ marksFrom_sorted n rows
  obtain ⟨_, tail, across⟩ := pairwise_append.mp sorted
  obtain ⟨above, _⟩ := pairwise_cons.mp tail
  have olderMarks : marksFrom mark n (rows.take k) = older := by
    rw [← filter_marksFrom, marks, filter_append, filter_cons_of_neg (by simp)]
    have keep : older.filter (fun m => m.1 < n + k) = older :=
      filter_eq_self.mpr fun m mem => decide_eq_true (across m mem _ mem_cons_self)
    have drop : newer.filter (fun m => m.1 < n + k) = [] := by
      refine filter_eq_nil_iff.mpr fun m mem => ?_
      have later := above m mem
      simp only [decide_eq_true_eq]
      omega
    rw [keep, drop, append_nil]
  have whole := marks
  rw [← take_append_drop k rows, rest, marksFrom_append, olderMarks, short, marksFrom, marked]
    at whole
  have cancelled := append_cancel_left whole
  simp only [map_some, toList_some, singleton_append, List.cons.injEq, true_and]
    at cancelled
  refine ⟨rows.take k, row, rows.drop (k + 1), ?_, marked, by rw [short], olderMarks, cancelled⟩
  rw [← rest, take_append_drop]

end Marks

end Microide.Lib
