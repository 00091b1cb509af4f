/-
Tables of tables.

A table by two keys, the rows of the first without an order of their own. Its column under a second key
is what the rows have there; a change of the table that leaves every row's entry under the key leaves
the column, up to order. The total of a table is a sum over its entries.

**Main results.** `column_perm`: columns are what the entries say; `entryAt_mapRows`: a sweep over all
rows that drops those it empties; `total_of_lookup`, `total_insert`: totals under one change.
-/

import Mathlib.Algebra.Ring.Nat
import Mathlib.Data.List.AList
import Mathlib.Data.List.Perm.Basic

namespace Microide.Lib

open List Option AList

variable {ι κ β : Type} [DecidableEq ι] [DecidableEq κ]

/-- A table, its keys in no order that matters. -/
abbrev Table (κ β : Type) := AList fun _ : κ => β

/-! ### Totals -/

section Totals

variable (measure : β → Nat) {table : Table κ β} {key : κ} {b : β}

def total (table : Table κ β) : Nat := (table.entries.map fun entry => measure entry.2).sum

theorem total_insert : total measure (table.insert key b) =
    measure b + total measure (table.erase key) := by
  rfl

theorem total_of_lookup (found : table.lookup key = some b) :
    total measure table = measure b + total measure (table.erase key) := by
  have mem : key ∈ table.entries.keys := mem_keys.mp (lookup_isSome.mp (by rw [found]; rfl))
  obtain ⟨b', before, after, apart, entries, erased⟩ := exists_of_kerase mem
  have same : b' = b := by
    have := mem_dlookup table.nodupKeys
      (show (⟨key, b'⟩ : Sigma fun _ : κ => β) ∈ table.entries by rw [entries]; simp)
    exact Option.some.inj ((mem_def.mp this).symm.trans found)
  subst same
  have left : (table.erase key).entries = before ++ after := erased
  rw [total, total, entries, left, map_append, map_cons, map_append,
    sum_append, sum_cons, sum_append]
  exact Nat.add_left_comm _ _ _

theorem total_of_absent (absent : table.lookup key = none) :
    total measure (table.erase key) = total measure table := by
  have left : (table.erase key).entries = table.entries :=
    kerase_of_notMem_keys (lookup_eq_none.mp absent)
  rw [total, total, left]

end Totals

/-! ### Columns -/

/-- A table of tables. -/
abbrev Nested (ι κ β : Type) := Table ι (Table κ β)

section Columns

def entryAt (rows : Nested ι κ β) (row : ι) (key : κ) : Option β :=
  (rows.lookup row).bind (·.lookup key)

/-- What the rows have under a key, with the rows that have it. -/
def column (rows : Nested ι κ β) (key : κ) : List (ι × β) :=
  rows.entries.filterMap fun entry => (entry.2.lookup key).map fun b => (entry.1, b)

variable {rows others : Nested ι κ β} {key : κ} {row : ι} {b : β}

theorem mem_column : (row, b) ∈ column rows key ↔ entryAt rows row key = some b := by
  rw [column, mem_filterMap, entryAt, bind_eq_some_iff]
  constructor
  · rintro ⟨entry, mem, found⟩
    obtain ⟨b', at_, same⟩ := map_eq_some_iff.mp found
    obtain ⟨rfl, rfl⟩ := Prod.mk.inj same
    exact ⟨entry.2, mem_def.mp (mem_dlookup rows.nodupKeys mem), at_⟩
  · rintro ⟨table, found, at_⟩
    exact ⟨⟨row, table⟩, of_mem_dlookup found, by rw [at_]; rfl⟩

omit [DecidableEq ι] in
theorem nodup_column : (column rows key).Nodup := by
  have rowsApart : (rows.entries.map Sigma.fst).Nodup := rows.nodupKeys
  refine Nodup.of_map Prod.fst (rowsApart.sublist ?_)
  rw [column]
  induction rows.entries with
  | nil => exact Sublist.refl _
  | cons entry entries ih =>
    rw [filterMap_cons, map_cons]
    cases entry.2.lookup key with
    | none => exact ih.cons _
    | some b => exact ih.cons_cons _

/-- Tables that agree under a key have one column there. -/
theorem column_perm (same : ∀ row, entryAt rows row key = entryAt others row key) :
    (column rows key).Perm (column others key) := by
  refine (perm_ext_iff_of_nodup nodup_column nodup_column).mpr fun pair => ?_
  rw [show pair = (pair.1, pair.2) from rfl, mem_column, mem_column, same]

end Columns

/-! ### Changes -/

section Changes

variable {rows : Nested ι κ β} {row : ι} {key : κ}

/-- Every row changed, and dropped where nothing is left of it. -/
def mapRows (f : Table κ β → Table κ β) (rows : Nested ι κ β) : Nested ι κ β where
  entries := (rows.entries.map fun entry => (⟨entry.1, f entry.2⟩ : Sigma fun _ : ι => Table κ β)).filter
    fun entry => !entry.2.entries.isEmpty
  nodupKeys := by
    have keys : ((rows.entries.map fun entry =>
        (⟨entry.1, f entry.2⟩ : Sigma fun _ : ι => Table κ β)).map Sigma.fst).Nodup := by
      rw [List.map_map]
      exact rows.nodupKeys
    exact keys.sublist ((List.filter_sublist ..).map _)

theorem entryAt_mapRows (f : Table κ β → Table κ β) :
    entryAt (mapRows f rows) row key = (rows.lookup row).bind fun table => (f table).lookup key := by
  have row_ : (mapRows f rows).lookup row =
      ((rows.lookup row).map f).filter fun table => !table.entries.isEmpty := by
    refine ext fun table => ?_
    rw [filter_eq_some_iff, map_eq_some_iff]
    refine (mem_dlookup_iff (mapRows f rows).nodupKeys).trans ?_
    rw [mapRows, mem_filter, List.mem_map]
    refine and_congr_left fun _ => ⟨?_, ?_⟩
    · rintro ⟨entry, mem, same⟩
      obtain ⟨rfl, value⟩ := Sigma.mk.inj same
      exact ⟨entry.2, (mem_dlookup_iff rows.nodupKeys).mpr mem, eq_of_heq value⟩
    · rintro ⟨before, found, rfl⟩
      exact ⟨⟨row, before⟩, of_mem_dlookup found, rfl⟩
  rw [entryAt, row_]
  cases rows.lookup row with
  | none => rfl
  | some table =>
    rw [map_some, bind_some]
    cases empty : (f table).entries.isEmpty with
    | false => simp [Option.filter, empty]
    | true =>
      have none_ : (f table).lookup key = none := by
        rw [AList.lookup, List.isEmpty_iff.mp empty]
        rfl
      rw [none_]
      simp [Option.filter, empty]

theorem entryAt_erase (other : ι) :
    entryAt (rows.erase other) row key = if row = other then none else entryAt rows row key := by
  rw [entryAt]
  split
  next same =>
    rw [same, lookup_erase]
    rfl
  next apart =>
    rw [lookup_erase_ne apart]
    rfl

theorem entryAt_insert (other : ι) (table : Table κ β) : entryAt (rows.insert other table) row key =
      if row = other then table.lookup key else entryAt rows row key := by
  rw [entryAt]
  split
  next same =>
    rw [same, lookup_insert]
    rfl
  next apart =>
    rw [lookup_insert_ne apart]
    rfl

theorem lookup_foldl_erase {table : Table κ β} {keys : List κ} (apart : key ∉ keys) :
    (keys.foldl (fun table key => table.erase key) table).lookup key = table.lookup key := by
  induction keys generalizing table with
  | nil => rfl
  | cons other keys ih =>
    obtain ⟨first, rest⟩ := not_or.mp (mt mem_cons.mpr apart)
    rw [foldl_cons, ih rest, lookup_erase_ne first]

theorem lookup_foldl_insert {table : Table κ β} {entries : List (κ × β)}
    (apart : key ∉ entries.map Prod.fst) :
    (entries.foldl (fun table entry => table.insert entry.1 entry.2) table).lookup key =
      table.lookup key := by
  induction entries generalizing table with
  | nil => rfl
  | cons entry entries ih =>
    obtain ⟨first, rest⟩ := not_or.mp (mt mem_cons.mpr apart)
    rw [foldl_cons, ih rest, lookup_insert_ne first]

end Changes

end Microide.Lib
