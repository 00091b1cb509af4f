/-
Sorted lists of keyed rows.

Rows in strictly increasing key order, so no key repeats. One walk over two such lists merges
them, the first over the second, and one walk tells what changed from the one to the other.

**Main results.** `mem_mergeOver`, `mergeOver_rising_iff`: what a merge holds, and when it is in
order; `diffRows_upserts`: a list without the keys deleted, with the rows changed, is the other.
-/

import Mathlib.Data.List.Nodup
import Mathlib.Order.Lattice
import Microide.Lib.BinarySearch

namespace Microide.Lib

open List

variable {α κ : Type} [LinearOrder κ] (key : α → κ)

/-- Strictly increasing keys. -/
def Rising (rows : List α) : Prop := rows.Pairwise fun a b => key a < key b

/-- A binary search for a key. -/
def hasKey (rows : List α) (k : κ) : Bool :=
  rows[partitionPoint (fun row => key row < k) rows]?.any fun row => key row = k

/-- The rows of `fresh`, with those of the second list that have no fresh row of their key and
are not gone. -/
def mergeOver (gone : α → Bool) (fresh : List α) : List α → List α
  | [] => fresh
  | row :: rows =>
    fresh.takeWhile (fun next => key next < key row) ++
      match fresh.dropWhile fun next => key next < key row with
      | [] => (if gone row then [] else [row]) ++ mergeOver gone [] rows
      | next :: rest =>
        if key next = key row then next :: mergeOver gone rest rows
        else (if gone row then [] else [row]) ++ mergeOver gone (next :: rest) rows

/-- The rows of the second list that are not in the first as they are, and the keys of the first
that the second lacks. -/
def diffRows [DecidableEq α] : List α → List α → List α × List κ
  | [], after => (after, [])
  | before :: befores, [] =>
    let rest := diffRows befores []
    (rest.1, key before :: rest.2)
  | before :: befores, after :: afters =>
    if key before < key after then
      let rest := diffRows befores (after :: afters)
      (rest.1, key before :: rest.2)
    else if key after < key before then
      let rest := diffRows (before :: befores) afters
      (after :: rest.1, rest.2)
    else
      let rest := diffRows befores afters
      (if before = after then rest.1 else after :: rest.1, rest.2)
termination_by before after => before.length + after.length

def upsertRow (rows : List α) (row : α) : List α :=
  rows.filter (fun other => key other < key row) ++ row ::
    rows.filter fun other => key row < key other

variable {key}

theorem Rising.ext {rows others : List α} (rising : Rising key rows) (rising' : Rising key others)
    (same : ∀ row, row ∈ rows ↔ row ∈ others) : rows = others := by
  have nodup : ∀ {l : List α}, Rising key l → l.Nodup := fun rising =>
    rising.imp fun lt same => absurd (congrArg key same) lt.ne
  have perm := (perm_ext_iff_of_nodup (nodup rising) (nodup rising')).mpr same
  exact perm.eq_of_pairwise (fun a b _ _ ab ba => absurd (ab.trans ba) (lt_irrefl _)) rising rising'

/-- A key has one row. -/
theorem Rising.unique {rows : List α} (rising : Rising key rows) {a b : α} (memA : a ∈ rows)
    (memB : b ∈ rows) (same : key a = key b) : a = b :=
  inj_on_of_nodup_map (pairwise_map.mpr (rising.imp fun lt => lt.ne)) memA memB same

/-- A binary search in sorted rows finds what is there. -/
theorem hasKey_iff {rows : List α} (sorted : rows.Pairwise fun a b => key a ≤ key b) {k : κ} :
    hasKey key rows k = true ↔ ∃ row ∈ rows, key row = k := by
  have cuts : rows.Pairwise fun a b => decide (key b < k) → decide (key a < k) := by
    refine sorted.imp fun {a b} le below => ?_
    rw [decide_eq_true_eq] at below ⊢
    exact le.trans_lt below
  obtain ⟨before, rest, cut, found, passing, failing⟩ := exists_cut cuts
  rw [hasKey, found, cut, getElem?_append_right le_rfl, Nat.sub_self, ← head?_eq_getElem?]
  constructor
  · intro hit
    obtain ⟨row, first, same⟩ := Option.any_eq_true _ _ |>.mp hit
    exact ⟨row, mem_append_right _ (mem_of_head? first), by simpa using same⟩
  · rintro ⟨row, mem, rfl⟩
    rcases mem_append.mp mem with mem | mem
    · have below := passing row mem
      rw [decide_eq_true_eq] at below
      exact absurd below (lt_irrefl _)
    · cases rest with
      | nil => exact absurd mem not_mem_nil
      | cons first rest =>
        have atLeast := failing first mem_cons_self
        rw [decide_eq_false_iff_not, not_lt] at atLeast
        have under : key first ≤ key row := by
          rcases mem_cons.mp mem with rfl | mem
          · exact le_rfl
          · rw [cut] at sorted
            have later := (pairwise_append.mp sorted).2.1
            exact (pairwise_cons.mp later).1 row mem
        rw [head?_cons, Option.any_some, decide_eq_true_eq]
        exact le_antisymm under atLeast

/-! ### Merging -/

variable {fresh : List α}

section Merge

variable {gone : α → Bool}

/-- The fresh rows around a key: those below it, and behind. -/
theorem cut_at (sorted : fresh.Pairwise fun a b => key a ≤ key b) (k : κ) :
    ∃ below rest, fresh = below ++ rest ∧ (fresh.takeWhile fun next => key next < k) = below ∧
      (fresh.dropWhile fun next => key next < k) = rest ∧ (∀ next ∈ below, key next < k) ∧
      ∀ next ∈ rest, k ≤ key next := by
  refine ⟨_, _, takeWhile_append_dropWhile.symm, rfl, rfl, fun next mem => ?_, ?_⟩
  · simpa using mem_takeWhile_imp mem
  · induction fresh with
    | nil => exact fun next mem => absurd mem not_mem_nil
    | cons first fresh ih =>
      obtain ⟨from_, sorted⟩ := pairwise_cons.mp sorted
      rw [dropWhile_cons]
      split
      · exact ih sorted
      next past =>
        rw [decide_eq_true_eq, not_lt] at past
        refine forall_mem_cons.mpr ⟨past, fun next mem => past.trans (from_ next mem)⟩

/-- **What a merge holds**: the fresh rows, and of the others those not gone whose key no fresh
row has. -/
theorem mem_mergeOver {rows : List α} (rising : Rising key rows)
    (sorted : fresh.Pairwise fun a b => key a ≤ key b) {row : α} :
    row ∈ mergeOver key gone fresh rows ↔
      row ∈ fresh ∨ row ∈ rows ∧ gone row = false ∧ ∀ next ∈ fresh, key next ≠ key row := by
  induction rows generalizing fresh with
  | nil => simp [mergeOver]
  | cons first rows ih =>
    obtain ⟨behind, rising⟩ := pairwise_cons.mp rising
    obtain ⟨below, rest, cut, taken, dropped, under, atLeast⟩ := cut_at sorted (key first)
    have sortedRest := (pairwise_append.mp (cut ▸ sorted)).2.1
    -- A row behind the first one has a key no row below the first has.
    have later : ∀ {rest' : List α}, (∀ next ∈ fresh, next ∈ rest' ∨ key next ≤ key first) →
        (∀ next ∈ rest', next ∈ fresh) → row ∈ rows →
        ((∀ next ∈ rest', key next ≠ key row) ↔ ∀ next ∈ fresh, key next ≠ key row) := by
      intro rest' covers inside mem
      constructor
      · intro apart next memNext
        rcases covers next memNext with kept | le
        · exact apart next kept
        · exact (le.trans_lt (behind row mem)).ne
      · exact fun apart next memNext => apart next (inside next memNext)
    have here : row ∈ (if gone first then [] else [first]) ↔ row = first ∧ gone row = false := by
      cases isGone : gone first with
      | true =>
        simp only [if_true, not_mem_nil, false_iff, not_and]
        rintro rfl
        exact fun is => Bool.noConfusion (is.symm.trans isGone)
      | false =>
        simp only [Bool.false_eq_true, if_false, mem_singleton, iff_self_and]
        rintro rfl
        exact isGone
    rw [mergeOver, taken, dropped]
    cases rest with
    | nil =>
      have inFresh : ∀ next, next ∈ fresh ↔ next ∈ below := fun next => by rw [cut, append_nil]
      have apart : ∀ next ∈ fresh, key next ≠ key first := fun next mem =>
        (under next ((inFresh next).mp mem)).ne
      rw [mem_append, mem_append, here, ih rising .nil, inFresh, mem_cons]
      constructor
      · rintro (mem | ⟨rfl, stays⟩ | mem | ⟨mem, stays, -⟩)
        · exact .inl mem
        · exact .inr ⟨.inl rfl, stays, apart⟩
        · exact absurd mem not_mem_nil
        · refine .inr ⟨.inr mem, stays, fun next memNext => ?_⟩
          exact ((under next ((inFresh next).mp memNext)).trans (behind row mem)).ne
      · rintro (mem | ⟨rfl | mem, stays, -⟩)
        · exact .inl mem
        · exact .inr (.inl ⟨rfl, stays⟩)
        · exact .inr (.inr (.inr ⟨mem, stays, fun _ mem => absurd mem not_mem_nil⟩))
    | cons next rest =>
      dsimp only
      have inFresh : ∀ other, other ∈ fresh ↔ other ∈ below ∨ other ∈ next :: rest := fun other => by
        rw [cut, mem_append]
      split
      next same =>
        rw [mem_append, mem_cons, ih rising (pairwise_cons.mp sortedRest).2, inFresh,
          mem_cons, mem_cons]
        have covers : ∀ other ∈ fresh, other ∈ rest ∨ key other ≤ key first := by
          intro other mem
          rcases (inFresh other).mp mem with mem | mem
          · exact .inr (under other mem).le
          · rcases mem_cons.mp mem with rfl | mem
            · exact .inr same.le
            · exact .inl mem
        have inside : ∀ other ∈ rest, other ∈ fresh := fun other mem =>
          (inFresh other).mpr (.inr (mem_cons_of_mem _ mem))
        constructor
        · rintro (mem | rfl | mem | ⟨mem, stays, apart⟩)
          · exact .inl (.inl mem)
          · exact .inl (.inr (.inl rfl))
          · exact .inl (.inr (.inr mem))
          · exact .inr ⟨.inr mem, stays, (later covers inside mem).mp apart⟩
        · rintro ((mem | rfl | mem) | ⟨rfl | mem, stays, apart⟩)
          · exact .inl mem
          · exact .inr (.inl rfl)
          · exact .inr (.inr (.inl mem))
          · exact absurd same (apart next ((inFresh next).mpr (.inr mem_cons_self)))
          · exact .inr (.inr (.inr ⟨mem, stays, (later covers inside mem).mpr apart⟩))
      next differs =>
        have strictly : ∀ other ∈ next :: rest, key first < key other := by
          intro other mem
          have head := lt_of_le_of_ne (atLeast next mem_cons_self) (Ne.symm differs)
          rcases mem_cons.mp mem with rfl | mem
          · exact head
          · exact head.trans_le (rel_of_pairwise_cons sortedRest mem)
        have apart : ∀ other ∈ fresh, key other ≠ key first := by
          intro other mem
          rcases (inFresh other).mp mem with mem | mem
          · exact (under other mem).ne
          · exact (strictly other mem).ne'
        have covers : ∀ other ∈ fresh, other ∈ next :: rest ∨ key other ≤ key first := by
          intro other mem
          rcases (inFresh other).mp mem with mem | mem
          · exact .inr (under other mem).le
          · exact .inl mem
        have inside : ∀ other ∈ next :: rest, other ∈ fresh := fun other mem =>
          (inFresh other).mpr (.inr mem)
        rw [mem_append, mem_append, here, ih rising sortedRest, inFresh]
        constructor
        · rintro (mem | ⟨rfl, stays⟩ | mem | ⟨mem, stays, clear⟩)
          · exact .inl (.inl mem)
          · exact .inr ⟨mem_cons_self, stays, apart⟩
          · exact .inl (.inr mem)
          · exact .inr ⟨mem_cons_of_mem _ mem, stays, (later covers inside mem).mp clear⟩
        · rintro ((mem | mem) | ⟨mem, stays, clear⟩)
          · exact .inl mem
          · exact .inr (.inr (.inl mem))
          · rcases mem_cons.mp mem with rfl | mem
            · exact .inr (.inl ⟨rfl, stays⟩)
            · exact .inr (.inr (.inr ⟨mem, stays, (later covers inside mem).mpr clear⟩))

theorem sublist_mergeOver (rows fresh : List α) (sorted : fresh.Pairwise fun a b => key a ≤ key b) :
    fresh.Sublist (mergeOver key gone fresh rows) := by
  induction rows generalizing fresh with
  | nil => exact .refl _
  | cons first rows ih =>
    obtain ⟨below, rest, cut, taken, dropped, -, -⟩ := cut_at sorted (key first)
    have sortedRest := (pairwise_append.mp (cut ▸ sorted)).2.1
    rw [mergeOver, taken, dropped]
    refine cut ▸ Sublist.append (.refl below) ?_
    cases rest with
    | nil => exact nil_sublist _
    | cons next rest =>
      dsimp only
      split
      · exact (ih rest (pairwise_cons.mp sortedRest).2).cons_cons next
      · exact (ih (next :: rest) sortedRest).trans (sublist_append_right _ _)

theorem Rising.sorted {rows : List α} (rising : Rising key rows) :
    rows.Pairwise fun a b => key a ≤ key b := rising.imp fun lt => lt.le

theorem Rising.mergeOver {rows : List α} (rising : Rising key rows)
    (risingFresh : Rising key fresh) :
    Rising key (mergeOver key gone fresh rows) := by
  induction rows generalizing fresh with
  | nil => exact risingFresh
  | cons first rows ih =>
    obtain ⟨behind, rising⟩ := pairwise_cons.mp rising
    obtain ⟨below, rest, cut, taken, dropped, under, atLeast⟩ := cut_at risingFresh.sorted (key first)
    obtain ⟨risingBelow, risingRest, -⟩ := pairwise_append.mp (cut ▸ risingFresh)
    -- The first row, and every merged row behind it.
    have alone : ∀ {rest : List α}, Rising key rest → (∀ next ∈ rest, key first < key next) →
        Rising key ((if gone first then [] else [first]) ++ Lib.mergeOver key gone rest rows) ∧
        ∀ row ∈ (if gone first then [] else [first]) ++ Lib.mergeOver key gone rest rows,
          key first ≤ key row := by
      intro rest risingRest above
      have tail : ∀ row ∈ Lib.mergeOver key gone rest rows, key first < key row := by
        intro row mem
        rcases (mem_mergeOver rising risingRest.sorted).mp mem with mem | ⟨mem, -, -⟩
        · exact above row mem
        · exact behind row mem
      split
      · exact ⟨ih rising risingRest, fun row mem => (tail row mem).le⟩
      · exact ⟨pairwise_cons.mpr ⟨tail, ih rising risingRest⟩,
          forall_mem_cons.mpr ⟨le_rfl, fun row mem => (tail row mem).le⟩⟩
    have join : ∀ {tail : List α}, Rising key tail ∧ (∀ row ∈ tail, key first ≤ key row) →
        Rising key (below ++ tail) := fun both => pairwise_append.mpr
      ⟨risingBelow, both.1, fun a memA b memB => (under a memA).trans_le (both.2 b memB)⟩
    rw [Lib.mergeOver, taken, dropped]
    cases rest with
    | nil => exact join (alone .nil fun _ mem => absurd mem not_mem_nil)
    | cons next rest =>
      obtain ⟨nextBehind, risingLater⟩ := pairwise_cons.mp risingRest
      dsimp only
      split
      next same =>
        have tail : ∀ row ∈ Lib.mergeOver key gone rest rows, key next < key row := by
          intro row mem
          rcases (mem_mergeOver rising (Rising.sorted risingLater)).mp mem with mem | ⟨mem, -, -⟩
          · exact nextBehind row mem
          · exact same.trans_lt (behind row mem)
        exact join ⟨pairwise_cons.mpr ⟨tail, ih rising risingLater⟩,
          forall_mem_cons.mpr ⟨same.ge, fun row mem => same.symm.trans_le (tail row mem).le⟩⟩
      next differs =>
        refine join (alone risingRest (forall_mem_cons.mpr ⟨?_, fun row mem => ?_⟩))
        · exact lt_of_le_of_ne (atLeast next mem_cons_self) (Ne.symm differs)
        · exact (atLeast next mem_cons_self).trans_lt (nextBehind row mem)

/-- A merge is in order, no key twice, exactly where the fresh rows are. -/
theorem mergeOver_rising_iff {rows : List α} (rising : Rising key rows)
    (sorted : fresh.Pairwise fun a b => key a ≤ key b) :
    Rising key (mergeOver key gone fresh rows) ↔ Rising key fresh :=
  ⟨fun merged => merged.sublist (sublist_mergeOver rows fresh sorted), rising.mergeOver⟩

end Merge

/-! ### Differences -/

section Diff

variable [DecidableEq α]

/-- The rows reported changed are among the second list's, in its order. -/
theorem diffRows_sublist (before after : List α) : (diffRows key before after).1.Sublist after := by
  fun_induction diffRows key before after with
  | case1 after => exact .refl _
  | case2 before befores rest ih => exact ih
  | case3 before befores after afters less rest ih => exact ih
  | case4 before befores after afters notLess less rest ih => exact ih.cons_cons after
  | case5 before befores after afters notLess notMore rest ih =>
    split
    · exact ih.cons after
    · exact ih.cons_cons after

theorem mem_diffRows {before after : List α} (rising : Rising key before)
    (risingAfter : Rising key after) :
    (∀ row, row ∈ (diffRows key before after).1 ↔ row ∈ after ∧ row ∉ before) ∧
      ∀ k, k ∈ (diffRows key before after).2 ↔
        (∃ row ∈ before, key row = k) ∧ ∀ row ∈ after, key row ≠ k := by
  fun_induction diffRows key before after with
  | case1 after => simp
  | case2 before befores rest ih =>
    obtain ⟨changed, deleted⟩ := ih (pairwise_cons.mp rising).2 .nil
    refine ⟨fun row => by rw [changed]; simp, fun k => ?_⟩
    rw [mem_cons, deleted]
    simp [eq_comm]
  | case3 before befores after afters less rest ih =>
    obtain ⟨behind, rising⟩ := pairwise_cons.mp rising
    obtain ⟨changed, deleted⟩ := ih rising risingAfter
    have past : ∀ row ∈ after :: afters, key before < key row := forall_mem_cons.mpr
      ⟨less, fun row mem => less.trans (rel_of_pairwise_cons risingAfter mem)⟩
    refine ⟨fun row => ?_, fun k => ?_⟩
    · rw [changed, mem_cons (a := row) (b := before), not_or]
      refine and_congr_right fun mem => iff_and_self.mpr fun _ same => ?_
      exact absurd (congrArg key same) (past row mem).ne'
    · rw [mem_cons, deleted]
      constructor
      · rintro (rfl | ⟨⟨row, mem, same⟩, apart⟩)
        · exact ⟨⟨before, mem_cons_self, rfl⟩, fun row mem => (past row mem).ne'⟩
        · exact ⟨⟨row, mem_cons_of_mem _ mem, same⟩, apart⟩
      · rintro ⟨⟨row, mem, same⟩, apart⟩
        rcases mem_cons.mp mem with rfl | mem
        · exact .inl same.symm
        · exact .inr ⟨⟨row, mem, same⟩, apart⟩
  | case4 before befores after afters notLess less rest ih =>
    obtain ⟨behind, risingAfter⟩ := pairwise_cons.mp risingAfter
    obtain ⟨changed, deleted⟩ := ih rising risingAfter
    have past : ∀ row ∈ before :: befores, key after < key row := forall_mem_cons.mpr
      ⟨less, fun row mem => less.trans (rel_of_pairwise_cons rising mem)⟩
    refine ⟨fun row => ?_, fun k => ?_⟩
    · rw [mem_cons, changed, mem_cons (b := after), or_and_right]
      refine or_congr_left (iff_self_and.mpr fun same mem => ?_)
      exact absurd (congrArg key same) (past row mem).ne'
    · rw [deleted, forall_mem_cons]
      refine and_congr_right ?_
      rintro ⟨row, mem, rfl⟩
      exact iff_and_self.mpr fun _ => (past row mem).ne
  | case5 before befores after afters notLess notMore rest ih =>
    obtain ⟨behind, rising⟩ := pairwise_cons.mp rising
    obtain ⟨behindAfter, risingAfter⟩ := pairwise_cons.mp risingAfter
    obtain ⟨changed, deleted⟩ := ih rising risingAfter
    have same : key before = key after := le_antisymm (not_lt.mp notMore) (not_lt.mp notLess)
    refine ⟨fun row => ?_, fun k => ?_⟩
    · have tail : row ∈ afters → row ≠ before := fun mem equal =>
        absurd (congrArg key equal) (same.trans_lt (behindAfter row mem)).ne'
      have head : after ∉ befores := fun mem => absurd same (behind after mem).ne
      split
      next equal =>
        rw [changed, mem_cons, mem_cons, not_or]
        constructor
        · rintro ⟨mem, apart⟩
          exact ⟨.inr mem, tail mem, apart⟩
        · rintro ⟨rfl | mem, ne, apart⟩
          · exact absurd equal.symm ne
          · exact ⟨mem, apart⟩
      next differ =>
        rw [mem_cons, changed, mem_cons, mem_cons, not_or]
        constructor
        · rintro (rfl | ⟨mem, apart⟩)
          · exact ⟨.inl rfl, Ne.symm differ, head⟩
          · exact ⟨.inr mem, tail mem, apart⟩
        · rintro ⟨rfl | mem, -, apart⟩
          · exact .inl rfl
          · exact .inr ⟨mem, apart⟩
    · rw [deleted, forall_mem_cons]
      constructor
      · rintro ⟨⟨row, mem, rfl⟩, apart⟩
        exact ⟨⟨row, mem_cons_of_mem _ mem, rfl⟩,
          fun equal => absurd (same.trans equal) (behind row mem).ne, apart⟩
      · rintro ⟨⟨row, mem, equal⟩, ne, apart⟩
        rcases mem_cons.mp mem with rfl | mem
        · exact absurd (same.symm.trans equal) ne
        · exact ⟨⟨row, mem, equal⟩, apart⟩

end Diff

/-! ### Patching -/

section Upsert

variable {rows : List α}

theorem mem_upsertRow {row other : α} :
    other ∈ upsertRow key rows row ↔ other = row ∨ other ∈ rows ∧ key row ≠ key other := by
  rw [upsertRow, mem_append, mem_cons, mem_filter, mem_filter, decide_eq_true_eq,
    decide_eq_true_eq, ne_iff_lt_or_gt]
  tauto

theorem Rising.upsertRow (rising : Rising key rows) (row : α) : Rising key (upsertRow key rows row) := by
  refine pairwise_append.mpr ⟨rising.filter _, pairwise_cons.mpr ⟨fun other mem => ?_,
    rising.filter _⟩, fun below memBelow other mem => ?_⟩
  · simpa using (mem_filter.mp mem).2
  · have under : key below < key row := by simpa using (mem_filter.mp memBelow).2
    rcases mem_cons.mp mem with rfl | mem
    · exact under
    · exact under.trans (by simpa using (mem_filter.mp mem).2)

theorem foldl_upsertRow {changed : List α} (risingChanged : Rising key changed)
    (rising : Rising key rows) : Rising key (changed.foldl (Lib.upsertRow key) rows) ∧
      ∀ other, other ∈ changed.foldl (Lib.upsertRow key) rows ↔
        other ∈ changed ∨ other ∈ rows ∧ ∀ row ∈ changed, key row ≠ key other := by
  induction changed generalizing rows with
  | nil => exact ⟨rising, fun other => by simp⟩
  | cons row changed ih =>
    obtain ⟨behind, risingChanged⟩ := pairwise_cons.mp risingChanged
    obtain ⟨risingAll, members⟩ := ih risingChanged (rising.upsertRow row)
    refine ⟨risingAll, fun other => ?_⟩
    rw [foldl_cons, members, mem_upsertRow, mem_cons, forall_mem_cons]
    constructor
    · rintro (mem | ⟨rfl | ⟨mem, ne⟩, apart⟩)
      · exact .inl (.inr mem)
      · exact .inl (.inl rfl)
      · exact .inr ⟨mem, ne, apart⟩
    · rintro ((rfl | mem) | ⟨mem, ne, apart⟩)
      · exact .inr ⟨.inl rfl, fun row mem => (behind row mem).ne'⟩
      · exact .inl mem
      · exact .inr ⟨.inr ⟨mem, ne⟩, apart⟩

/-- **A list without the keys reported deleted, with the rows reported changed, is the other.** -/
theorem diffRows_upserts [DecidableEq α] {before after : List α} (rising : Rising key before)
    (risingAfter : Rising key after) :
    (diffRows key before after).1.foldl (Lib.upsertRow key)
      (before.filter fun row => key row ∉ (diffRows key before after).2) = after := by
  obtain ⟨changed, deleted⟩ := mem_diffRows rising risingAfter
  have risingChanged : Rising key (diffRows key before after).1 :=
    Pairwise.sublist (diffRows_sublist before after) risingAfter
  have risingKept : Rising key (before.filter fun row => key row ∉ (diffRows key before after).2) :=
    Pairwise.filter _ rising
  obtain ⟨risingAll, members⟩ := foldl_upsertRow risingChanged risingKept
  refine risingAll.ext risingAfter fun row => ?_
  rw [members, changed, mem_filter, decide_eq_true_eq, deleted]
  constructor
  · rintro (⟨mem, -⟩ | ⟨⟨mem, kept⟩, apart⟩)
    · exact mem
    · by_contra missing
      refine kept ⟨⟨row, mem, rfl⟩, fun other memOther same => ?_⟩
      by_cases old : other ∈ before
      · exact missing (rising.unique old mem same ▸ memOther)
      · exact apart other ((changed other).mpr ⟨memOther, old⟩) same
  · intro mem
    by_cases old : row ∈ before
    · refine .inr ⟨⟨old, fun gone => gone.2 row mem rfl⟩, fun other memOther same => ?_⟩
      obtain ⟨memAfter, new⟩ := (changed other).mp memOther
      exact new (risingAfter.unique memAfter mem same ▸ old)
    · exact .inl ⟨mem, old⟩

end Upsert

end Microide.Lib
