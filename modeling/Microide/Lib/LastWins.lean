/-
Stable sorts and the last of equals.

A list sorted by a rank keeps the order of what ranks equal, so the last entry of a key can be
told after the sort where the rank is the key itself. By another rank it is the same entry
exactly where no entry of the key ranks above it. A list by the last entry of every key is the
sorted list with each run of equal keys cut to its last.

**Main results.** `mem_lastOfRuns_sortBy`: the entries kept are the last of their keys;
`lastOfRuns_sortBy_congr`: lists with the same last entries are cut to the same list;
`lastWith_sortBy_of_above`, `rank_le_of_lastWith_sortBy`: the last entry of a key after a sort
by another rank.
-/

import Mathlib.Data.List.Sort
import Mathlib.Data.List.GetD
import Mathlib.Data.List.Destutter

namespace Microide.Lib

open List

variable {α κ ι : Type} [LinearOrder κ] [LinearOrder ι]

/-! ### Stable sorts -/

/-- Sorted by `rank`, what ranks equal in its order. -/
def sortBy (rank : α → κ) (l : List α) : List α := l.insertionSort fun a b => rank a ≤ rank b

variable {l : List α} {a : α}

section SortBy

variable (rank : α → κ)

instance rankTotal : Std.Total fun a b : α => rank a ≤ rank b := ⟨fun _ _ => le_total _ _⟩

instance rankTrans : IsTrans α fun a b => rank a ≤ rank b := ⟨fun _ _ _ => le_trans⟩

theorem sortBy_pairwise (l : List α) : (sortBy rank l).Pairwise fun a b => rank a ≤ rank b :=
  pairwise_insertionSort _ l

theorem perm_sortBy (l : List α) : (sortBy rank l).Perm l := perm_insertionSort _ l

theorem mem_sortBy : a ∈ sortBy rank l ↔ a ∈ l :=
  mem_insertionSort _

theorem sortBy_eq_self (sorted : l.Pairwise fun a b => rank a ≤ rank b) :
    sortBy rank l = l := sorted.insertionSort_eq

/-- An element that is the only one of its kind is not cut. -/
theorem mem_of_destutter {R : α → α → Prop} [DecidableRel R]
    (mem : a ∈ l) (alone : ∀ b ∈ l, ¬ R b a → b = a) : a ∈ l.destutter R := by
  have from_ : ∀ (l : List α) (b : α), a ∈ b :: l → (∀ c ∈ b :: l, ¬ R c a → c = a) →
      a ∈ l.destutter' R b := by
    intro l
    induction l with
    | nil =>
      intro b mem _
      rwa [destutter'_nil]
    | cons x l ih =>
      intro b mem alone
      by_cases kept : R b x
      · rw [destutter'_cons_pos _ kept]
        rcases mem_cons.mp mem with rfl | mem
        · exact mem_cons_self
        · exact mem_cons_of_mem _
            (ih x mem fun c hc => alone c (mem_cons_of_mem _ hc))
      · rw [destutter'_cons_neg _ kept]
        have back : a ∈ b :: l := by
          rcases mem_cons.mp mem with rfl | mem
          · exact mem_cons_self
          · rcases mem_cons.mp mem with rfl | mem
            · exact alone b mem_cons_self kept ▸ mem_cons_self
            · exact mem_cons_of_mem _ mem
        refine ih b back fun c hc => alone c ?_
        rcases mem_cons.mp hc with rfl | hc
        · exact mem_cons_self
        · exact mem_cons_of_mem _ (mem_cons_of_mem _ hc)
  cases l with
  | nil => exact nomatch mem
  | cons b l => exact from_ l b mem alone

/-- What is left of runs of equals has every element. -/
theorem mem_destutter [DecidableEq α] : a ∈ l.destutter (· ≠ ·) ↔ a ∈ l :=
  ⟨((destutter_sublist _ l).subset ·), fun mem => mem_of_destutter mem fun _ _ => not_not.mp⟩

/-- What is sorted by a rank and cut to one entry of each is strictly sorted. -/
theorem pairwise_lt_destutter [DecidableRel fun a b : α => rank a ≠ rank b]
    (sorted : l.Pairwise fun a b => rank a ≤ rank b) :
    (l.destutter fun a b => rank a ≠ rank b).Pairwise fun a b => rank a < rank b := by
  have distinct : (l.destutter fun a b => rank a ≠ rank b).IsChain fun a b => rank a ≠ rank b :=
    isChain_destutter _ _
  have kept := sorted.sublist (destutter_sublist (fun a b => rank a ≠ rank b) _)
  have rises : (l.destutter fun a b => rank a ≠ rank b).IsChain fun a b => rank a < rank b := by
    rw [isChain_iff_forall_rel_of_append_cons_cons] at distinct ⊢
    intro a b before rest cut
    have le := (pairwise_append.mp (cut ▸ kept)).2.1
    exact lt_of_le_of_ne (rel_of_pairwise_cons le mem_cons_self) (distinct cut)
  exact isChain_iff_pairwise.mp rises

theorem filter_orderedInsert (keep : α → Bool) (a : α)
    (sorted : l.Pairwise fun a b => rank a ≤ rank b) :
    (l.orderedInsert (fun a b => rank a ≤ rank b) a).filter keep =
      if keep a then (l.filter keep).orderedInsert (fun a b => rank a ≤ rank b) a
      else l.filter keep := by
  induction l with
  | nil => cases kept : keep a <;> simp [kept]
  | cons b l ih =>
    obtain ⟨below, sorted⟩ := pairwise_cons.mp sorted
    rw [orderedInsert_cons]
    split
    next first =>
      cases kept : keep a with
      | false => simp [kept]
      | true =>
        -- what passes of `b :: l` starts with an entry not below `a`
        have insert : ∀ rest : List α, (∀ c ∈ rest, rank a ≤ rank c) →
            rest.orderedInsert (fun a b => rank a ≤ rank b) a = a :: rest := by
          intro rest above
          cases rest with
          | nil => rfl
          | cons c rest =>
            exact orderedInsert_cons_of_le _ _ (above c (mem_cons_self ..))
        rw [filter_cons_of_pos kept, if_pos rfl, insert]
        intro c mem
        rcases mem_cons.mp (mem_filter.mp mem).1 with rfl | mem
        · exact first
        · exact first.trans (below c mem)
    next later =>
      rw [filter_cons, ih sorted, filter_cons]
      cases kept : keep a with
      | false => simp
      | true =>
        cases keptToo : keep b with
        | false => simp
        | true => simp [later]

/-- What passes is sorted as it would be alone. -/
theorem filter_sortBy (keep : α → Bool) (l : List α) :
    (sortBy rank l).filter keep = sortBy rank (l.filter keep) := by
  induction l with
  | nil => rfl
  | cons a l ih =>
    have step := filter_orderedInsert rank keep a (sortBy_pairwise rank l)
    unfold sortBy at step ih ⊢
    rw [insertionSort_cons, step, ih, filter_cons]
    split <;> rfl

/-- An entry no other ranks above stays last. -/
theorem sortBy_append_singleton {last : α} (above : ∀ a ∈ l, rank a ≤ rank last) :
    sortBy rank (l ++ [last]) = sortBy rank l ++ [last] := by
  have insert : ∀ (a : α) (rest : List α), rank a ≤ rank last →
      (rest ++ [last]).orderedInsert (fun a b => rank a ≤ rank b) a =
        rest.orderedInsert (fun a b => rank a ≤ rank b) a ++ [last] := by
    intro a rest below
    induction rest with
    | nil => exact orderedInsert_cons_of_le _ _ below
    | cons b rest ih =>
      rw [cons_append, orderedInsert_cons, orderedInsert_cons, ih]
      split <;> rfl
  induction l with
  | nil => rfl
  | cons a l ih =>
    have sorted := ih fun b mem => above b (mem_cons_of_mem _ mem)
    unfold sortBy at sorted ⊢
    rw [cons_append, insertionSort_cons, insertionSort_cons, sorted,
      insert a _ (above a (mem_cons_self ..))]

end SortBy

/-! ### The last entry of a key -/

/-- The last entry of the key `k`. -/
def lastWith (key : α → κ) (l : List α) (k : κ) : Option α := (l.filter (key · = k)).getLast?

section LastWith

variable (key : α → κ)

theorem lastWith_mem {k : κ} (last : lastWith key l k = some a) : a ∈ l ∧ key a = k := by
  have mem := mem_of_getLast? last
  simpa using mem

theorem lastWith_isSome (mem : a ∈ l) : ∃ last, lastWith key l (key a) = some last := by
  have nonempty : l.filter (key · = key a) ≠ [] :=
    ne_nil_of_mem (mem_filter.mpr ⟨mem, by simp⟩)
  exact ⟨_, getLast?_eq_some_getLast nonempty⟩

theorem lastWith_map {β : Type} (f : β → α) (l : List β) (k : κ) :
    lastWith key (l.map f) k = (lastWith (fun b => key (f b)) l k).map f := by
  unfold lastWith
  rw [filter_map, getLast?_map]
  rfl

theorem lastWith_sortBy_self (l : List α) (k : κ) :
    lastWith key (sortBy key l) k = lastWith key l k := by
  unfold lastWith
  rw [filter_sortBy, sortBy_eq_self]
  refine pairwise_of_forall_mem_list fun a memA b memB => ?_
  have sameA : key a = k := by simpa using (mem_filter.mp memA).2
  have sameB : key b = k := by simpa using (mem_filter.mp memB).2
  rw [sameA, sameB]

theorem lastWith_cons (a : α) (l : List α) (k : κ) :
    lastWith key (a :: l) k = (lastWith key l k).or (if key a = k then some a else none) := by
  unfold lastWith
  rw [filter_cons]
  by_cases same : key a = k
  · rw [if_pos (by simp [same]), if_pos same, getLast?_cons]
    cases (l.filter (key · = k)).getLast? <;> rfl
  · rw [if_neg (by simp [same]), if_neg same, Option.or_none]

theorem lastWith_eq_none {k : κ} (absent : ∀ a ∈ l, key a ≠ k) : lastWith key l k = none := by
  have empty : l.filter (key · = k) = [] :=
    filter_eq_nil_iff.mpr fun a mem => by simpa using absent a mem
  rw [lastWith, empty, getLast?_nil]

/-- The last entry of a key is last after a sort by another rank, where none of its key ranks
above it. -/
theorem lastWith_sortBy_of_above (rank : α → ι) {k : κ} {last : α}
    (isLast : lastWith key l k = some last) (above : ∀ a ∈ l, key a = k → rank a ≤ rank last) :
    lastWith key (sortBy rank l) k = some last := by
  unfold lastWith at isLast ⊢
  rw [filter_sortBy]
  obtain ⟨front, group⟩ := getLast?_eq_some_iff.mp isLast
  have below : ∀ a ∈ front, rank a ≤ rank last := by
    intro a mem
    have inGroup : a ∈ l.filter (key · = k) := by
      rw [group]
      exact mem_append_left _ mem
    obtain ⟨inList, ofKey⟩ := mem_filter.mp inGroup
    exact above a inList (by simpa using ofKey)
  rw [group, sortBy_append_singleton rank below, getLast?_concat]

/-- The last of a key after a sort by another rank ranks above the others of its key. -/
theorem rank_le_of_lastWith_sortBy (rank : α → ι) {k : κ} {last : α}
    (isLast : lastWith key (sortBy rank l) k = some last) (mem : a ∈ l) (ofKey : key a = k) :
    rank a ≤ rank last := by
  unfold lastWith at isLast
  rw [filter_sortBy] at isLast
  obtain ⟨front, group⟩ := getLast?_eq_some_iff.mp isLast
  have memSorted : a ∈ sortBy rank (l.filter (key · = k)) := by
    rw [mem_sortBy]
    exact mem_filter.mpr ⟨mem, by simpa using ofKey⟩
  have sorted := sortBy_pairwise rank (l.filter (key · = k))
  rw [group, pairwise_append] at sorted
  rw [group, mem_append, mem_singleton] at memSorted
  rcases memSorted with before | rfl
  · exact sorted.2.2 a before last (mem_singleton.mpr rfl)
  · exact le_rfl

end LastWith

/-! ### Runs cut to their last -/

/-- Each run of equal keys, by its last entry. -/
def lastOfRuns (key : α → κ) : List α → List α
  | [] => []
  | [a] => [a]
  | a :: b :: more =>
    if key b = key a then lastOfRuns key (b :: more) else a :: lastOfRuns key (b :: more)

section Runs

variable (key : α → κ)

theorem lastOfRuns_eq_self (strict : l.Pairwise fun a b => key a < key b) :
    lastOfRuns key l = l := by
  induction l using lastOfRuns.induct key with
  | case1 => rfl
  | case2 a => rfl
  | case3 a b more same ih =>
    have below := (pairwise_cons.mp strict).1 b (mem_cons_self ..)
    exact absurd same below.ne'
  | case4 a b more apart ih =>
    rw [lastOfRuns, if_neg apart, ih (pairwise_cons.mp strict).2]

theorem mem_lastOfRuns (sorted : l.Pairwise fun a b => key a ≤ key b) (a : α) :
    a ∈ lastOfRuns key l ↔ lastWith key l (key a) = some a := by
  induction l using lastOfRuns.induct key with
  | case1 => simp [lastOfRuns, lastWith]
  | case2 b =>
    by_cases same : key b = key a
    · simp [lastOfRuns, lastWith, same, eq_comm]
    · simp only [lastOfRuns, mem_singleton, lastWith, filter_singleton, same]
      constructor
      · rintro rfl
        exact absurd rfl same
      · simp
  | case3 b c more same ih =>
    rw [lastOfRuns, if_pos same, ih (pairwise_cons.mp sorted).2, lastWith_cons key b]
    by_cases ofKey : key b = key a
    · obtain ⟨last, isLast⟩ := lastWith_isSome key (mem_cons_self (a := c) (l := more))
      rw [same, ofKey] at isLast
      rw [isLast, Option.some_or]
    · rw [if_neg ofKey, Option.or_none]
  | case4 b c more apart ih =>
    obtain ⟨below, rest⟩ := pairwise_cons.mp sorted
    -- the keys after `b` are all above its own
    have above : ∀ d ∈ c :: more, key b < key d := by
      have next := lt_of_le_of_ne (below c (mem_cons_self ..)) (Ne.symm apart)
      intro d mem
      rcases mem_cons.mp mem with rfl | mem
      · exact next
      · exact next.trans_le ((pairwise_cons.mp rest).1 d mem)
    rw [lastOfRuns, if_neg apart, mem_cons, ih rest, lastWith_cons key b]
    constructor
    · rintro (rfl | isLast)
      · rw [lastWith_eq_none key fun d mem => (above d mem).ne', if_pos rfl, Option.none_or]
      · rw [isLast, Option.some_or]
    · intro isLast
      cases inRest : lastWith key (c :: more) (key a) with
      | some d =>
        rw [inRest, Option.some_or] at isLast
        exact .inr isLast
      | none =>
        rw [inRest, Option.none_or] at isLast
        split at isLast
        · exact .inl (Option.some.inj isLast).symm
        · cases isLast

theorem lastOfRuns_strict (sorted : l.Pairwise fun a b => key a ≤ key b) :
    (lastOfRuns key l).Pairwise fun a b => key a < key b := by
  induction l using lastOfRuns.induct key with
  | case1 => exact .nil
  | case2 a => exact pairwise_singleton ..
  | case3 a b more same ih =>
    rw [lastOfRuns, if_pos same]
    exact ih (pairwise_cons.mp sorted).2
  | case4 a b more apart ih =>
    obtain ⟨below, rest⟩ := pairwise_cons.mp sorted
    rw [lastOfRuns, if_neg apart]
    refine pairwise_cons.mpr ⟨fun c mem => ?_, ih rest⟩
    have inRest := (lastWith_mem key ((mem_lastOfRuns key rest c).mp mem)).1
    have next := lt_of_le_of_ne (below b (mem_cons_self ..)) (Ne.symm apart)
    rcases mem_cons.mp inRest with rfl | inMore
    · exact next
    · exact next.trans_le ((pairwise_cons.mp rest).1 c inMore)

/-- The entries kept of a list are the last of their keys. -/
theorem mem_lastOfRuns_sortBy :
    a ∈ lastOfRuns key (sortBy key l) ↔ lastWith key l (key a) = some a := by
  rw [mem_lastOfRuns key (sortBy_pairwise key l), lastWith_sortBy_self]

/-- The cut list has the same last entries. -/
theorem lastWith_lastOfRuns_sortBy (l : List α) (k : κ) :
    lastWith key (lastOfRuns key (sortBy key l)) k = lastWith key l k := by
  cases isLast : lastWith key l k with
  | some a =>
    obtain ⟨-, rfl⟩ := lastWith_mem key isLast
    obtain ⟨b, isLast'⟩ := lastWith_isSome key ((mem_lastOfRuns_sortBy key).mpr isLast)
    obtain ⟨mem, same⟩ := lastWith_mem key isLast'
    rw [mem_lastOfRuns_sortBy, same, isLast] at mem
    rw [isLast', mem]
  | none =>
    refine lastWith_eq_none key fun a mem same => ?_
    rw [mem_lastOfRuns_sortBy, same, isLast] at mem
    cases mem

/-- Lists with the same last entries are cut to the same list. -/
theorem lastOfRuns_sortBy_congr {l' : List α} (same : ∀ k, lastWith key l k = lastWith key l' k) :
    lastOfRuns key (sortBy key l) = lastOfRuns key (sortBy key l') := by
  have strict := lastOfRuns_strict key (sortBy_pairwise key l)
  have strict' := lastOfRuns_strict key (sortBy_pairwise key l')
  refine strict.eq_of_mem_iff strict' fun a => ?_
  rw [mem_lastOfRuns_sortBy, mem_lastOfRuns_sortBy, same]

end Runs

end Microide.Lib
