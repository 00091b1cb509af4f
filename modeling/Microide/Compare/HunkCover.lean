/-
The hunks cover the changed rows.

Navigation, staging and review find a hunk from a row and the rows from a hunk. For any
options of the differ, a changed row lies in one hunk and carries its index, an unchanged
row lies in none, and the hunks are in order.

**Main result.** `buildCompareModel_cover`. The invariant is about the rows and hunks
written so far; a step appends unchanged rows, appends a run of changed rows with its
hunk, or lets the last hunk grow by the row of a phantom.
-/

import Mathlib.Data.List.Pairwise
import Microide.Compare.CompareRows

namespace Microide.Compare

open List Lib Text RowSink

/-- Row `k` lies in the rows of the hunk. -/
def CompareHunk.Contains (hunk : CompareHunk) (k : Nat) : Prop :=
  hunk.startRow ≤ k ∧ k ≤ hunk.endRow

/-- The hunks are numbered and in order, and contain exactly the changed rows, which point
back at them. -/
structure HunksCover (rows : List CompareRow) (hunks : List CompareHunk) : Prop where
  index_eq : ∀ i (hunk : CompareHunk), hunks[i]? = some hunk → hunk.index = i
  within : ∀ hunk ∈ hunks, hunk.startRow ≤ hunk.endRow ∧ hunk.endRow < rows.length
  ordered : hunks.Pairwise fun hunk later => hunk.endRow < later.startRow
  changed : ∀ k (row : CompareRow), rows[k]? = some row → row.kind ≠ .unchanged →
    ∃ hunk ∈ hunks, hunk.Contains k ∧ row.hunk = some hunk.index
  unchanged : ∀ k (row : CompareRow), rows[k]? = some row → row.kind = .unchanged →
    row.hunk = none ∧ ∀ hunk ∈ hunks, ¬ hunk.Contains k

namespace HunksCover

variable {rows : List CompareRow} {hunks : List CompareHunk}

theorem nil : HunksCover [] [] := by
  constructor <;> simp

section

variable (h : HunksCover rows hunks)

include h

/-- Hunks that contain a common row are one hunk. -/
theorem eq_of_contains {k : Nat} {hunk other : CompareHunk} (hmem : hunk ∈ hunks)
    (hother : other ∈ hunks) (hk : hunk.Contains k) (hk' : other.Contains k) : other = hunk := by
  by_contra hne
  have hapart : hunks.Pairwise fun a b => ¬ (a.Contains k ∧ b.Contains k) := by
    refine h.ordered.imp fun hlt hboth => ?_
    have := hboth.1.2
    have := hboth.2.1
    omega
  have hsymm : Std.Symm fun a b : CompareHunk => ¬ (a.Contains k ∧ b.Contains k) :=
    ⟨fun _ _ hab hba => hab hba.symm⟩
  exact hapart.forall hmem hother (Ne.symm hne) ⟨hk, hk'⟩

/-- Unchanged rows after the last hunk. -/
theorem append_unchanged {more : List CompareRow}
    (hmore : ∀ row ∈ more, row.kind = .unchanged ∧ row.hunk = none) :
    HunksCover (rows ++ more) hunks := by
  have hold : ∀ (k : Nat) (row : CompareRow), (rows ++ more)[k]? = some row → row ∉ more → rows[k]? = some row := by
    intro k row hrow hnot
    rw [getElem?_append] at hrow
    split at hrow
    · exact hrow
    · exact absurd (mem_of_getElem? hrow) hnot
  constructor
  · exact h.index_eq
  · intro hunk hmem
    rw [length_append]
    exact ⟨(h.within hunk hmem).1, Nat.lt_add_right _ (h.within hunk hmem).2⟩
  · exact h.ordered
  · intro k row hrow hkind
    exact h.changed k row (hold k row hrow fun hmem => hkind (hmore row hmem).1) hkind
  · intro k row hrow hkind
    rw [getElem?_append] at hrow
    split at hrow
    · exact h.unchanged k row hrow hkind
    · next hge =>
      refine ⟨(hmore row (mem_of_getElem? hrow)).2, fun hunk hmem hcontains => ?_⟩
      have := (h.within hunk hmem).2
      have := hcontains.2
      omega

/-- A run of changed rows with its hunk. -/
theorem append_hunk {more : List CompareRow} (hne : more ≠ [])
    (hmore : ∀ row ∈ more, row.kind ≠ .unchanged ∧ row.hunk = some hunks.length) :
    HunksCover (rows ++ more)
      (hunks ++ [{ index := hunks.length, startRow := rows.length,
                   endRow := (rows ++ more).length - 1 }]) := by
  have hpos := length_pos_iff.mpr hne
  constructor
  · intro i hunk hhunk
    rw [getElem?_append] at hhunk
    split at hhunk
    · exact h.index_eq i hunk hhunk
    · next hge =>
      rw [getElem?_singleton] at hhunk
      split at hhunk
      · cases hhunk
        dsimp only
        omega
      · cases hhunk
  · rw [forall_mem_append, forall_mem_singleton, length_append]
    constructor
    · intro hunk hmem
      have := h.within hunk hmem
      omega
    · dsimp only
      omega
  · rw [pairwise_append]
    refine ⟨h.ordered, pairwise_singleton _ _, ?_⟩
    intro hunk hmem later hlater
    rw [mem_singleton.mp hlater]
    exact (h.within hunk hmem).2
  · intro k row hrow hkind
    rw [getElem?_append] at hrow
    split at hrow
    · obtain ⟨hunk, hmem, hcontains⟩ := h.changed k row hrow hkind
      exact ⟨hunk, mem_append_left _ hmem, hcontains⟩
    · next hge =>
      have hlt : k - rows.length < more.length := (List.getElem?_eq_some_iff.mp hrow).1
      refine ⟨_, mem_append_right _ (mem_singleton_self _), ⟨?_, ?_⟩,
        (hmore row (mem_of_getElem? hrow)).2⟩
      · exact Nat.not_lt.mp hge
      · dsimp only
        rw [length_append]
        omega
  · intro k row hrow hkind
    rw [getElem?_append] at hrow
    split at hrow
    · next hlt =>
      obtain ⟨hnone, hout⟩ := h.unchanged k row hrow hkind
      refine ⟨hnone, ?_⟩
      rw [forall_mem_append, forall_mem_singleton]
      exact ⟨hout, fun hcontains => absurd hcontains.1 (Nat.not_le.mpr hlt)⟩
    · exact absurd hkind (hmore row (mem_of_getElem? hrow)).1

/-- A changed row that is a hunk of its own. -/
theorem append_row {row : CompareRow} (hkind : row.kind ≠ .unchanged)
    (hhunk : row.hunk = some hunks.length) : HunksCover (rows ++ [row])
      (hunks ++ [{ index := hunks.length, startRow := rows.length, endRow := rows.length }]) := by
  have hcover := h.append_hunk (cons_ne_nil row []) (forall_mem_singleton.mpr ⟨hkind, hhunk⟩)
  rwa [length_append, length_singleton, Nat.add_sub_cancel] at hcover

end

/-- The last hunk grows by a changed row that follows it. -/
theorem grow_last {init : List CompareHunk} {last : CompareHunk}
    (h : HunksCover rows (init ++ [last])) (hend : last.endRow + 1 = rows.length) {row : CompareRow}
    (hkind : row.kind ≠ .unchanged) (hhunk : row.hunk = some last.index) :
    HunksCover (rows ++ [row]) (init ++ [{ last with endRow := rows.length }]) := by
  have hlast := h.within last (by simp)
  constructor
  · intro i hunk hget
    rw [getElem?_append] at hget
    split at hget
    · next hlt => exact h.index_eq i hunk (by rw [getElem?_append_left hlt]; exact hget)
    · next hge =>
      have hindex := h.index_eq i last (by
        rw [getElem?_append_right (Nat.not_lt.mp hge)]
        rw [getElem?_singleton] at hget ⊢
        split at hget
        · next hzero => rw [if_pos hzero]
        · cases hget)
      rw [getElem?_singleton] at hget
      split at hget
      · cases hget
        exact hindex
      · cases hget
  · rw [forall_mem_append, forall_mem_singleton, length_append, length_singleton]
    constructor
    · intro hunk hmem
      have := h.within hunk (mem_append_left _ hmem)
      omega
    · dsimp only
      omega
  · have hordered := h.ordered
    rw [pairwise_append] at hordered ⊢
    refine ⟨hordered.1, pairwise_singleton _ _, ?_⟩
    intro hunk hmem later hlater
    rw [mem_singleton.mp hlater]
    exact hordered.2.2 hunk hmem last (mem_singleton_self _)
  · intro k other hother hchanged
    rw [getElem?_append] at hother
    split at hother
    · next hlt =>
      obtain ⟨hunk, hmem, hcontains, hindex⟩ := h.changed k other hother hchanged
      rcases mem_append.mp hmem with hmem | hmem
      · exact ⟨hunk, mem_append_left _ hmem, hcontains, hindex⟩
      · obtain rfl := mem_singleton.mp hmem
        exact ⟨_, mem_append_right _ (mem_singleton_self _),
          ⟨hcontains.1, Nat.le_of_lt hlt⟩, hindex⟩
    · next hge =>
      rw [getElem?_singleton] at hother
      split at hother
      · cases hother
        refine ⟨_, mem_append_right _ (mem_singleton_self _), ⟨?_, ?_⟩, hhunk⟩
        · dsimp only
          omega
        · dsimp only
          omega
      · cases hother
  · intro k other hother hunchanged
    rw [getElem?_append] at hother
    split at hother
    · next hlt =>
      obtain ⟨hnone, hout⟩ := h.unchanged k other hother hunchanged
      refine ⟨hnone, ?_⟩
      rw [forall_mem_append, forall_mem_singleton] at hout ⊢
      refine ⟨hout.1, fun hcontains => hout.2 ⟨hcontains.1, ?_⟩⟩
      omega
    · rw [getElem?_singleton] at hother
      split at hother
      · cases hother
        exact absurd hunchanged hkind
      · cases hother

end HunksCover

/-! ### The sink -/

theorem pushEquals_appends (sink : RowSink) (pairs : List (Line × Line)) :
    ∃ more, (sink.pushEquals pairs).rows = sink.rows ++ more ∧
      (sink.pushEquals pairs).hunks = sink.hunks ∧
      ∀ row ∈ more, row.kind = .unchanged ∧ row.hunk = none := by
  induction pairs generalizing sink with
  | nil => exact ⟨[], by simp [pushEquals], rfl, by simp⟩
  | cons pair pairs ih =>
      obtain ⟨more, hrows, hhunks, hmore⟩ := ih (sink.pushEqual pair.1 pair.2)
      exact ⟨_ :: more, hrows.trans (append_assoc _ [_] more), hhunks,
        forall_mem_cons.mpr ⟨⟨rfl, rfl⟩, hmore⟩⟩

theorem pushAligned_appends (hunk : Nat) (sink : RowSink) (kinds : List HunkAlignmentKind)
    (deleted inserted : List Line) :
    ∃ more, (pushAligned hunk sink kinds deleted inserted).rows = sink.rows ++ more ∧
      (pushAligned hunk sink kinds deleted inserted).hunks = sink.hunks ∧
      more.length = kinds.length ∧
      ∀ row ∈ more, row.kind ≠ .unchanged ∧ row.hunk = some hunk := by
  induction kinds generalizing sink deleted inserted with
  | nil => exact ⟨[], by simp [pushAligned], rfl, rfl, by simp⟩
  | cons kind kinds ih =>
      -- Every kind of step writes one row and goes on with the lines it did not take.
      have hstep : ∀ (next : RowSink) (row : CompareRow) (deleted' inserted' : List Line),
          next.rows = sink.rows ++ [row] → next.hunks = sink.hunks →
          row.kind ≠ .unchanged ∧ row.hunk = some hunk →
          ∃ more, (pushAligned hunk next kinds deleted' inserted').rows =
              sink.rows ++ more ∧
            (pushAligned hunk next kinds deleted' inserted').hunks = sink.hunks ∧
            more.length = kinds.length + 1 ∧
            ∀ row ∈ more, row.kind ≠ .unchanged ∧ row.hunk = some hunk := by
        intro next row deleted' inserted' hnext hhunks' hrow
        obtain ⟨more, hrows, hhunks, hlength, hmore⟩ := ih next deleted' inserted'
        refine ⟨row :: more, ?_, hhunks.trans hhunks', ?_, forall_mem_cons.mpr ⟨hrow, hmore⟩⟩
        · rw [hrows, hnext, append_assoc, singleton_append]
        · rw [length_cons, hlength]
      cases kind with
      | pair => exact hstep _ _ _ _ rfl rfl ⟨by simp, rfl⟩
      | delete => exact hstep _ _ _ _ rfl rfl ⟨by simp, rfl⟩
      | insert => exact hstep _ _ _ _ rfl rfl ⟨by simp, rfl⟩

section Sink

variable {K : Type} (A : Doubles K) {sink : RowSink}

section

variable (h : HunksCover sink.rows sink.hunks)

include h

theorem cover_pushEquals (pairs : List (Line × Line)) :
    HunksCover (sink.pushEquals pairs).rows (sink.pushEquals pairs).hunks := by
  obtain ⟨more, hrows, hhunks, hmore⟩ := pushEquals_appends sink pairs
  rw [hrows, hhunks]
  exact h.append_unchanged hmore

theorem cover_flushRun (deleted inserted : List Line) :
    HunksCover (flushRun A sink deleted inserted).rows (flushRun A sink deleted inserted).hunks := by
  unfold flushRun
  split
  · exact h
  · next hsome =>
    obtain ⟨hdeleted, hinserted⟩ := alignHunkLines_counts A deleted inserted
    obtain ⟨more, hrows, hhunks, hlength, hmore⟩ := pushAligned_appends sink.hunks.length sink
      (alignHunkLines A deleted inserted) deleted inserted
    have hne : more ≠ [] := by
      rintro rfl
      rw [eq_nil_of_length_eq_zero hlength.symm] at hdeleted hinserted
      have hdeleted := eq_nil_of_length_eq_zero hdeleted.symm
      have hinserted := eq_nil_of_length_eq_zero hinserted.symm
      exact hsome (by rw [hdeleted, hinserted]; rfl)
    dsimp only
    rw [hrows, hhunks]
    exact h.append_hunk hne hmore

theorem cover_rowsFromOps (deleted inserted : List Line) (ops : List DiffOp) :
    HunksCover (rowsFromOps A sink deleted inserted ops).rows
      (rowsFromOps A sink deleted inserted ops).hunks := by
  induction ops generalizing sink deleted inserted with
  | nil => exact cover_flushRun A h deleted inserted
  | cons op ops ih =>
      obtain ⟨kind, text, rightText⟩ := op
      cases kind with
      | equal =>
          apply ih
          exact cover_pushEquals (cover_flushRun A h deleted inserted) [(text, rightText)]
      | delete => exact ih h (deleted ++ [text]) inserted
      | insert => exact ih h deleted (inserted ++ [text])

/-- The row of the phantoms: unchanged, part of the last hunk, or a hunk of its own. -/
theorem cover_pushPhantom (leftPhantom rightPhantom : Bool) :
    HunksCover (pushPhantom sink leftPhantom rightPhantom).rows
      (pushPhantom sink leftPhantom rightPhantom).hunks := by
  have hkind : ∀ b : Bool, (if b then CompareRowKind.deleted else .added) ≠ .unchanged := by
    intro b
    cases b <;> simp
  unfold pushPhantom
  split
  · exact cover_pushEquals h [([], [])]
  · split
    · rcases eq_nil_or_concat' sink.hunks with hhunks | ⟨init, last, hhunks⟩
      · rw [hhunks] at h ⊢
        exact h.append_row (hkind leftPhantom) rfl
      · rw [hhunks] at h ⊢
        rw [getLast?_concat]
        dsimp only
        by_cases hend : last.endRow + 1 = sink.rows.length
        · rw [if_pos hend, dropLast_concat, getLast?_concat]
          exact h.grow_last hend (hkind leftPhantom) rfl
        · rw [if_neg hend, getLast?_concat]
          exact h.append_row (hkind leftPhantom) rfl
    · exact h

end

end Sink

/-- **The hunks cover the changed rows**, for any options of the differ. -/
theorem buildCompareModel_cover {K : Type} (A : Doubles K) (left right : List UInt8)
    (options : CompareBuildOptions) : HunksCover (buildCompareModel A left right options).rows
      (buildCompareModel A left right options).hunks := by
  have hempty : HunksCover ({} : RowSink).rows ({} : RowSink).hunks := HunksCover.nil
  exact cover_pushPhantom (cover_pushEquals (cover_rowsFromOps A (cover_pushEquals hempty _)
    [] [] _) _) _ _

end Microide.Compare
