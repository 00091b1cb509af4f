/-
Normalising a caret set.

Whatever carets there are, the normalised ones do not meet and select what was selected.

**Main results.** `dedupe_clear`: no two carets left meet; `dedupe_eq_self`: carets that do not
meet and are in order are left alone; `dedupeSecondaryCaretsAgainstPrimary_normalises`.
-/

import Microide.Editor.CaretSets

namespace Microide.Editor

open List Bool Lib CaretView Caret TextPosition

namespace Caret

def startKey (caret : Caret) : Nat ×ₗ Nat := caret.start.key

def stopKey (caret : Caret) : Nat ×ₗ Nat := caret.stop.key

end Caret

/-- The two neither overlap nor, where one of them is bare, touch. -/
abbrev Caret.Clear : Caret → Caret → Prop := Lib.Clear Caret.startKey Caret.stopKey

namespace CaretView

/-- The position is in a selection. -/
def Selected (view : CaretView) (position : TextPosition) : Prop :=
  Held Caret.startKey Caret.stopKey view.carets position.key

/-- What is left of a caret set is one the edits run over, with the same selections. -/
structure Normalises (view normal : CaretView) : Prop where
  lines : normal.lines = view.lines
  accepted : normal.multiCaretSelectionsOverlap = false
  selected : ∀ position, normal.Selected position ↔ view.Selected position
  carets : ∀ caret ∈ view.carets, ∃ whole ∈ normal.carets,
    whole.startKey ≤ caret.position.key ∧ caret.position.key ≤ whole.stopKey
  primary : normal.primary.startKey ≤ view.primary.startKey ∧
    view.primary.stopKey ≤ normal.primary.stopKey
  sorted : normal.secondaries.Pairwise fun a b => a.position.key ≤ b.position.key
  stable : normal.dedupeSecondaryCaretsAgainstPrimary = normal

end CaretView

/-! ### Carets that do not meet -/

section Clear

variable {view : CaretView}

theorem Caret.Clear.ne {a b : Caret} (clear : a.Clear b) : a ≠ b := by
  rintro rfl
  exact not_clear_self rfl rfl a.start_le_stop clear

theorem mergeEntries_keys : ∀ entry ∈ view.mergeEntries, ∃ caret ∈ view.carets,
    ∃ isPrimary, entry = CaretMergeEntry.ofCaret isPrimary caret := by
  refine forall_mem_cons.mpr ⟨⟨view.primary, mem_cons_self, true, rfl⟩, fun entry mem => ?_⟩
  obtain ⟨caret, memCaret, rfl⟩ := mem_map.mp mem
  exact ⟨caret, mem_cons_of_mem _ memCaret, false, rfl⟩

theorem mergeEntries_ordered : ∀ entry ∈ view.mergeEntries, entry.start.key ≤ entry.stop.key := by
  intro entry mem
  obtain ⟨caret, -, isPrimary, rfl⟩ := mergeEntries_keys entry mem
  exact CaretMergeEntry.ofCaret_ordered isPrimary caret

/-- The entries in the order they are merged in, from their starts. -/
theorem sorted_mergeEntries {first : CaretMergeEntry} {rest : List CaretMergeEntry}
    (cut : sortBy CaretMergeEntry.rank view.mergeEntries = first :: rest) :
    (first :: rest).Pairwise (fun a b => a.start.key ≤ b.start.key) ∧
      (∀ entry ∈ first :: rest, entry.start.key ≤ entry.stop.key) ∧
      (first :: rest).Perm view.mergeEntries := by
  have perm := perm_sortBy CaretMergeEntry.rank view.mergeEntries
  have sorted := sortBy_pairwise CaretMergeEntry.rank view.mergeEntries
  rw [cut] at perm sorted
  refine ⟨sorted.imp fun {a b} le => ?_, fun entry mem => ?_, perm⟩
  · rcases Prod.Lex.le_iff.mp le with lt | ⟨same, -⟩
    · exact lt.le
    · exact same.le
  · exact mergeEntries_ordered entry (perm.mem_iff.mp mem)

theorem clear_mergeEntries (clear : view.carets.Pairwise Caret.Clear) :
    view.mergeEntries.Pairwise
      (Clear (fun entry : CaretMergeEntry => entry.start.key) fun entry => entry.stop.key) := by
  have one : ∀ {a b : Caret} {p q : Bool}, a.Clear b →
      Clear (fun entry : CaretMergeEntry => entry.start.key) (fun entry => entry.stop.key)
        (CaretMergeEntry.ofCaret p a) (CaretMergeEntry.ofCaret q b) := by
    intro a b p q clear
    unfold Lib.Clear Before
    simp only [CaretMergeEntry.ofCaret_start, CaretMergeEntry.ofCaret_stop]
    exact clear
  obtain ⟨behind, clear⟩ := pairwise_cons.mp clear
  refine pairwise_cons.mpr ⟨fun entry mem => ?_, pairwise_map.mpr (clear.imp one)⟩
  obtain ⟨caret, memCaret, rfl⟩ := mem_map.mp mem
  exact one (behind caret memCaret)

/-- Ranges in the order of their starts that do not meet come one before the other. -/
theorem before_of_clear {ε : Type} {start stop : ε → Nat ×ₗ Nat} {ranges : List ε}
    (sorted : ranges.Pairwise fun a b => start a ≤ start b)
    (clear : ranges.Pairwise (Clear start stop)) (ordered : ∀ range ∈ ranges, start range ≤ stop range) :
    ranges.Pairwise (Before start stop) := by
  refine (sorted.and clear).imp_of_mem fun {a b} memA memB both => ?_
  obtain ⟨starts, before | after⟩ := both
  · exact before
  · have upper := ordered b memB
    obtain ⟨le, lt⟩ := after
    have same : start b = stop b := le_antisymm upper (le.trans starts)
    exact absurd (lt (.inl same)) (not_lt.mpr (starts.trans same.le))

/-- **Carets that do not meet are not merged.** -/
theorem mergeOverlappingCaretRanges_clear (clear : view.carets.Pairwise Caret.Clear) :
    view.mergeOverlappingCaretRanges = view := by
  unfold mergeOverlappingCaretRanges
  split
  · rfl
  · split
    · rfl
    next first rest cut =>
      obtain ⟨sorted, ordered, perm⟩ := sorted_mergeEntries cut
      have apart := perm.symm.pairwise (clear_mergeEntries clear) Clear.symm
      rw [CaretMergeEntry.mergeRule.unmerged (before_of_clear sorted apart ordered),
        if_neg Bool.false_ne_true]

/-- **Carets that do not meet and are in order are left alone.** -/
theorem dedupe_eq_self (clear : view.carets.Pairwise Caret.Clear)
    (sorted : view.secondaries.Pairwise fun a b => a.position.key ≤ b.position.key) :
    view.dedupeSecondaryCaretsAgainstPrimary = view := by
  obtain ⟨behind, others⟩ := pairwise_cons.mp clear
  have kept : ((sortBy (·.position.key) view.secondaries).destutter (· ≠ ·)).filter
      (fun caret => !(caret = view.primary)) = view.secondaries := by
    rw [sortBy_eq_self _ sorted, destutter_of_isChain _ _ (others.imp fun clear => clear.ne).isChain,
      filter_eq_self]
    intro caret mem
    rw [not_eq_true', decide_eq_false_iff_not]
    exact fun same => (behind caret mem).ne same.symm
  rw [dedupeSecondaryCaretsAgainstPrimary, kept]
  exact mergeOverlappingCaretRanges_clear clear

theorem selectionRange_getD (caret : Caret) :
    caret.selectionRange.getD ⟨caret.position, caret.position⟩ = ⟨caret.start, caret.stop⟩ := by
  by_cases bare : caret.Bare
  · rw [bare.start, bare.stop, show caret.selectionRange = none from bare]
    rfl
  · rw [selectionRange_eq bare]
    rfl

theorem rangesOverlap_before : ∀ {ranges : List SelectionRange},
    ranges.Pairwise (Before (fun range => range.start.key) fun range => range.stop.key) →
      (∀ range ∈ ranges, range.start.key ≤ range.stop.key) → rangesOverlap ranges = false
  | [], _, _ => rfl
  | [_], _, _ => rfl
  | above :: below :: ranges, before, ordered => by
    obtain ⟨here, later⟩ := pairwise_cons.mp before
    obtain ⟨le, lt⟩ := here below mem_cons_self
    obtain ⟨orderedHere, orderedLater⟩ := forall_mem_cons.mp ordered
    have starts : below.start ≠ above.start := by
      intro same
      dsimp only at le lt
      rw [same] at le lt
      exact absurd (lt (.inl (le_antisymm orderedHere le))) (not_lt.mpr orderedHere)
    have past : positionBefore below.start above.stop = false := by
      rw [eq_false_iff, ne_eq, positionBefore_iff_key, not_lt]
      exact le
    rw [rangesOverlap, rangesOverlap_before later orderedLater, past, decide_eq_false starts]
    rfl

/-- The edits run over carets that do not meet. -/
theorem clear_accepted (clear : view.carets.Pairwise Caret.Clear) :
    view.multiCaretSelectionsOverlap = false := by
  unfold multiCaretSelectionsOverlap
  rw [map_congr_left fun caret _ => selectionRange_getD caret]
  have perm := perm_sortBy (fun range : SelectionRange => toLex (range.start.key, range.stop.key))
    (view.carets.map fun caret => (⟨caret.start, caret.stop⟩ : SelectionRange))
  have sorted := sortBy_pairwise (fun range : SelectionRange => toLex (range.start.key, range.stop.key))
    (view.carets.map fun caret => (⟨caret.start, caret.stop⟩ : SelectionRange))
  have ordered : ∀ range ∈ sortBy (fun range : SelectionRange => toLex (range.start.key, range.stop.key))
      (view.carets.map fun caret => (⟨caret.start, caret.stop⟩ : SelectionRange)),
      range.start.key ≤ range.stop.key := by
    intro range mem
    obtain ⟨caret, -, rfl⟩ := mem_map.mp (perm.mem_iff.mp mem)
    exact caret.start_le_stop
  have before := before_of_clear (sorted.imp fun {a b} le =>
      show a.start.key ≤ b.start.key from (Prod.Lex.le_iff.mp le).elim le_of_lt fun same => same.1.le)
    (perm.symm.pairwise (pairwise_map.mpr clear) Clear.symm) ordered
  have kept := destutter_sublist (· ≠ ·)
    (sortBy (fun range : SelectionRange => toLex (range.start.key, range.stop.key))
      (view.carets.map fun caret => (⟨caret.start, caret.stop⟩ : SelectionRange)))
  exact rangesOverlap_before (before.sublist kept) fun range mem => ordered range (kept.subset mem)

end Clear

/-! ### What a merge leaves -/

variable {out : List CaretMergeEntry}

section Merge

variable {view : CaretView}

theorem toCaret_ends {entry : CaretMergeEntry} (ordered : entry.start.key ≤ entry.stop.key) :
    entry.toCaret.start = entry.start ∧ entry.toCaret.stop = entry.stop := by
  by_cases collapsed : entry.start = entry.stop
  · have place : entry.toCaret.position = entry.stop := by
      unfold CaretMergeEntry.toCaret
      split
      · rfl
      · exact collapsed
    have bare : entry.toCaret.Bare := by
      rw [bare_iff, CaretMergeEntry.toCaret, CaretMergeEntry.collapsed, decide_eq_true collapsed]
      exact fun _ mem => absurd mem.symm (Option.some_ne_none _)
    rw [bare.start, bare.stop, place]
    exact ⟨collapsed.symm, rfl⟩
  · have lt := lt_of_le_of_ne ordered fun same => collapsed (key_inj same)
    have before := positionBefore_iff_key.mpr lt
    have after : positionBefore entry.stop entry.start = false := by
      rw [eq_false_iff, ne_eq, positionBefore_iff_key, not_lt]
      exact ordered
    unfold start stop selectionRange CaretMergeEntry.toCaret
      CaretMergeEntry.collapsed
    rw [decide_eq_false collapsed]
    cases entry.caretAtEnd with
    | true => simp [collapsed, before]
    | false => simp [Ne.symm collapsed, after]

theorem filter_isPrimary {primary : CaretMergeEntry}
    (found : out.find? (·.isPrimary) = some primary) (one : out.countP (·.isPrimary) ≤ 1) :
    out.filter (·.isPrimary) = [primary] := by
  have first : (out.filter (·.isPrimary)).head? = some primary := by
    rw [head?_filter]
    exact found
  rw [countP_eq_length_filter] at one
  cases marked : out.filter (·.isPrimary) with
  | nil =>
    rw [marked] at first
    exact absurd first.symm (Option.some_ne_none _)
  | cons head tail =>
    rw [marked] at first one
    obtain rfl := Option.some.inj first
    rw [length_eq_zero_iff.mp (Nat.le_zero.mp (Nat.le_of_succ_le_succ one))]

/-- The carets of merged entries: the one marked primary, the others in order. -/
theorem carets_merged {primary : CaretMergeEntry} (alone : out.filter (·.isPrimary) = [primary]) :
    (primary.toCaret :: sortBy (·.position.key)
      ((out.filter fun entry => !entry.isPrimary).map (·.toCaret))).Perm (out.map (·.toCaret)) := by
  have both := (filter_append_perm (fun entry : CaretMergeEntry => entry.isPrimary) out).map
    (·.toCaret)
  rw [alone, singleton_append, map_cons] at both
  exact ((perm_sortBy _ _).cons _).trans both

/-- What a merge makes of a caret set. -/
structure Merges (view normal : CaretView) : Prop where
  lines : normal.lines = view.lines
  clear : normal.carets.Pairwise Caret.Clear
  sorted : normal.secondaries.Pairwise fun a b => a.position.key ≤ b.position.key
  held : ∀ k, Held Caret.startKey Caret.stopKey normal.carets k ↔
    Held Caret.startKey Caret.stopKey view.carets k
  contained : ∀ caret ∈ view.carets, ∃ whole ∈ normal.carets,
    whole.startKey ≤ caret.startKey ∧ caret.stopKey ≤ whole.stopKey
  primary : normal.primary.startKey ≤ view.primary.startKey ∧
    view.primary.stopKey ≤ normal.primary.stopKey

theorem Merges.refl (clear : view.carets.Pairwise Caret.Clear)
    (sorted : view.secondaries.Pairwise fun a b => a.position.key ≤ b.position.key) :
    Merges view view :=
  ⟨rfl, clear, sorted, fun _ => Iff.rfl, fun caret mem => ⟨caret, mem, le_rfl, le_rfl⟩, le_rfl, le_rfl⟩

/-- Ranges with the same ends hold the same. -/
theorem held_congr {ε δ : Type} {start stop : ε → Nat ×ₗ Nat} {start' stop' : δ → Nat ×ₗ Nat}
    {ranges : List ε} {others : List δ} (f : ε → δ) (perm : others.Perm (ranges.map f))
    (same : ∀ range ∈ ranges, start' (f range) = start range ∧ stop' (f range) = stop range)
    (k : Nat ×ₗ Nat) : Held start' stop' others k ↔ Held start stop ranges k := by
  constructor
  · rintro ⟨other, mem, inside⟩
    obtain ⟨range, memRange, rfl⟩ := mem_map.mp (perm.mem_iff.mp mem)
    obtain ⟨starts, stops⟩ := same range memRange
    exact ⟨range, memRange, starts ▸ stops ▸ inside⟩
  · rintro ⟨range, mem, inside⟩
    obtain ⟨starts, stops⟩ := same range mem
    refine ⟨f range, perm.mem_iff.mpr (mem_map.mpr ⟨range, mem, rfl⟩), ?_⟩
    rw [starts, stops]
    exact inside

theorem clear_of_entries (before : view.mergeEntries.Pairwise
    (Clear (fun entry : CaretMergeEntry => entry.start.key) fun entry => entry.stop.key)) :
    view.carets.Pairwise Caret.Clear := by
  have one : ∀ {a b : Caret} {p q : Bool},
      Clear (fun entry : CaretMergeEntry => entry.start.key) (fun entry => entry.stop.key)
        (CaretMergeEntry.ofCaret p a) (CaretMergeEntry.ofCaret q b) → a.Clear b := by
    intro a b p q clear
    unfold Lib.Clear Before at clear
    simp only [CaretMergeEntry.ofCaret_start, CaretMergeEntry.ofCaret_stop] at clear
    exact clear
  obtain ⟨behind, others⟩ := pairwise_cons.mp before
  refine pairwise_cons.mpr ⟨fun caret mem => ?_, (pairwise_map.mp others).imp one⟩
  exact one (behind _ (mem_map.mpr ⟨caret, mem, rfl⟩))

/-- Bare carets in places of their own do not meet. -/
theorem clear_bare (bare : ∀ caret ∈ view.carets, caret.Bare)
    (apart : view.carets.Pairwise fun a b => a.position ≠ b.position) :
    view.carets.Pairwise Caret.Clear := by
  refine apart.imp_of_mem fun {a b} memA memB ne => ?_
  unfold Caret.Clear Lib.Clear Before startKey stopKey
  rw [(bare a memA).start, (bare a memA).stop, (bare b memB).start, (bare b memB).stop]
  rcases lt_trichotomy a.position.key b.position.key with lt | same | lt
  · exact .inl ⟨lt.le, fun _ => lt⟩
  · exact absurd (key_inj same) ne
  · exact .inr ⟨lt.le, fun _ => lt⟩

theorem held_mergeEntries (k : Nat ×ₗ Nat) :
    Held (fun entry : CaretMergeEntry => entry.start.key) (fun entry => entry.stop.key)
      view.mergeEntries k ↔ Held startKey stopKey view.carets k := by
  have others : Held (fun entry : CaretMergeEntry => entry.start.key) (fun entry => entry.stop.key)
      (view.secondaries.map (CaretMergeEntry.ofCaret false)) k ↔
        Held startKey stopKey view.secondaries k :=
    held_congr (CaretMergeEntry.ofCaret false) (.refl _) (fun caret _ =>
      ⟨congrArg key (CaretMergeEntry.ofCaret_start false caret),
        congrArg key (CaretMergeEntry.ofCaret_stop false caret)⟩) k
  rw [mergeEntries, carets, held_cons, held_cons, others,
    CaretMergeEntry.ofCaret_start, CaretMergeEntry.ofCaret_stop]
  rfl

theorem countP_mergeEntries : view.mergeEntries.countP (·.isPrimary) = 1 := by
  have none_ : (view.secondaries.map (CaretMergeEntry.ofCaret false)).countP (·.isPrimary) = 0 := by
    rw [countP_eq_zero]
    intro entry mem
    obtain ⟨caret, -, rfl⟩ := mem_map.mp mem
    rw [CaretMergeEntry.ofCaret_isPrimary]
    exact Bool.false_ne_true
  rw [mergeEntries, countP_cons, none_, CaretMergeEntry.ofCaret_isPrimary, if_pos rfl]

/-- The carets written back from merged entries. -/
theorem merges_rebuilt
    (before : out.Pairwise (Before (fun entry : CaretMergeEntry => entry.start.key)
      fun entry => entry.stop.key))
    (ordered : ∀ entry ∈ out, entry.start.key ≤ entry.stop.key)
    (held : ∀ k, Held (fun entry : CaretMergeEntry => entry.start.key) (fun entry => entry.stop.key)
      out k ↔ Held startKey stopKey view.carets k)
    (contained : ∀ entry ∈ view.mergeEntries, ∃ whole ∈ out, whole.start.key ≤ entry.start.key ∧
      entry.stop.key ≤ whole.stop.key ∧ (entry.isPrimary = true → whole.isPrimary = true))
    (one : out.countP (·.isPrimary) ≤ 1) : Merges view
      { view with
        primary := ((out.find? (·.isPrimary)).map (·.toCaret)).getD view.primary
        secondaries := sortBy (·.position.key)
          ((out.filter fun entry => !entry.isPrimary).map (·.toCaret)) } := by
  obtain ⟨whole, memWhole, startsWhole, stopsWhole, marked⟩ := contained _ mem_cons_self
  have marked := marked (CaretMergeEntry.ofCaret_isPrimary true view.primary)
  rw [CaretMergeEntry.ofCaret_start] at startsWhole
  rw [CaretMergeEntry.ofCaret_stop] at stopsWhole
  obtain ⟨primary, found⟩ := Option.isSome_iff_exists.mp
    (find?_isSome.mpr ⟨whole, memWhole, marked⟩)
  have alone := filter_isPrimary found one
  have perm := carets_merged alone
  have ends : ∀ entry ∈ out, entry.toCaret.startKey = entry.start.key ∧
      entry.toCaret.stopKey = entry.stop.key := by
    intro entry mem
    obtain ⟨starts, stops⟩ := toCaret_ends (ordered entry mem)
    exact ⟨congrArg _ starts, congrArg _ stops⟩
  rw [found, Option.map_some, Option.getD_some]
  refine ⟨rfl, ?_, sortBy_pairwise _ _, fun k => ?_, fun caret mem => ?_, ?_⟩
  · refine perm.symm.pairwise (pairwise_map.mpr ?_) Clear.symm
    refine before.imp_of_mem fun {a b} memA memB before => .inl ?_
    unfold Before
    rw [(ends a memA).1, (ends a memA).2, (ends b memB).1, (ends b memB).2]
    exact before
  · rw [← held]
    exact held_congr (·.toCaret) perm ends k
  · obtain ⟨entry, memEntry, starts, stops⟩ : ∃ entry ∈ view.mergeEntries,
        entry.start = caret.start ∧ entry.stop = caret.stop := by
      rcases mem_cons.mp mem with rfl | mem
      · exact ⟨_, mem_cons_self, CaretMergeEntry.ofCaret_start _ _, CaretMergeEntry.ofCaret_stop _ _⟩
      · exact ⟨_, mem_cons_of_mem _ (mem_map.mpr ⟨caret, mem, rfl⟩),
          CaretMergeEntry.ofCaret_start _ _, CaretMergeEntry.ofCaret_stop _ _⟩
    obtain ⟨merged, memMerged, startsMerged, stopsMerged, -⟩ := contained entry memEntry
    refine ⟨merged.toCaret, perm.mem_iff.mpr (mem_map.mpr ⟨merged, memMerged, rfl⟩), ?_, ?_⟩
    · rw [(ends merged memMerged).1]
      exact startsMerged.trans_eq (congrArg _ starts)
    · rw [(ends merged memMerged).2]
      exact (congrArg key stops).symm.trans_le stopsMerged
  · have same : whole = primary := by
      rw [← mem_singleton, ← alone]
      exact mem_filter.mpr ⟨memWhole, marked⟩
    subst same
    rw [(ends whole memWhole).1, (ends whole memWhole).2]
    exact ⟨startsWhole, stopsWhole⟩

/-- **What merging the ranges of a caret set leaves.** -/
theorem mergeOverlappingCaretRanges_merges
    (sorted : view.secondaries.Pairwise fun a b => a.position.key ≤ b.position.key)
    (apart : (∀ caret ∈ view.carets, caret.selectionAnchor = none) →
      view.carets.Pairwise fun a b => a.position ≠ b.position) :
    Merges view view.mergeOverlappingCaretRanges := by
  unfold mergeOverlappingCaretRanges
  split
  next alone =>
    rw [or_eq_true, not_eq_true', any_eq_false, List.isEmpty_iff] at alone
    refine .refl ?_ sorted
    rcases alone with none_ | none_
    · have bare : ∀ caret ∈ view.carets, caret.selectionAnchor = none := fun caret mem =>
        Option.not_isSome_iff_eq_none.mp (none_ caret mem)
      refine clear_bare (fun caret mem => ?_) (apart bare)
      rw [bare_iff, bare caret mem]
      exact fun _ mem => absurd mem.symm (Option.some_ne_none _)
    · rw [carets, none_]
      exact pairwise_singleton _ _
  · split
    next cut =>
      have perm := perm_sortBy CaretMergeEntry.rank view.mergeEntries
      rw [cut] at perm
      exact absurd perm.symm.eq_nil (cons_ne_nil _ _)
    next first rest cut =>
      obtain ⟨starts, ordered, perm⟩ := sorted_mergeEntries cut
      have rule := CaretMergeEntry.mergeRule
      dsimp only
      split
      · refine merges_rebuilt (rule.clear starts ordered) ?_ (fun k => ?_) (fun entry mem => ?_) ?_
        · obtain ⟨head, tail, outCut, -, -, -, orderedOut⟩ := rule.merged starts ordered
          rw [outCut]
          exact orderedOut
        · rw [rule.covered starts ordered]
          refine (held_congr id ?_ (fun _ _ => ⟨rfl, rfl⟩) k).trans (held_mergeEntries k)
          rw [map_id]
          exact perm
        · exact rule.contained starts ordered (fun _ _ => rfl) (perm.mem_iff.mpr mem)
        · refine (MergeRule.countP_merged_le fun _ _ => rfl).trans ?_
          rw [perm.countP_eq, countP_mergeEntries]
      next unflagged =>
        rw [not_eq_true] at unflagged
        have before := rule.clear starts ordered
        rw [mergeRuns_unflagged unflagged] at before
        exact .refl (clear_of_entries (perm.pairwise (before.imp Or.inl) Clear.symm)) sorted

end Merge

/-! ### Normalising -/

section Normalise

variable {view : CaretView}

/-- In order and without repeats, bare carets are in places of their own. -/
theorem places_apart {l : List Caret} (sorted : l.Pairwise fun a b => a.position.key ≤ b.position.key)
    (distinct : l.IsChain (· ≠ ·)) (bare : ∀ caret ∈ l, caret.selectionAnchor = none) :
    l.Pairwise fun a b => a.position ≠ b.position := by
  have rises : l.IsChain fun a b => a.position.key < b.position.key := by
    rw [isChain_iff_forall_rel_of_append_cons_cons] at distinct ⊢
    intro a b before rest cut
    have le := (pairwise_append.mp (cut ▸ sorted)).2.1
    refine lt_of_le_of_ne (rel_of_pairwise_cons le mem_cons_self) fun same => ?_
    refine distinct cut ?_
    have memA : a ∈ l := by simp [cut]
    have memB : b ∈ l := by simp [cut]
    have anchors := (bare a memA).trans (bare b memB).symm
    cases a
    cases b
    exact congrArg₂ Caret.mk (key_inj same) anchors
  exact rises.pairwise.imp fun lt same => absurd (congrArg key same) lt.ne

/-- Normalising merges a caret set. -/
theorem dedupe_merges (view : CaretView) : Merges view view.dedupeSecondaryCaretsAgainstPrimary := by
  rw [dedupeSecondaryCaretsAgainstPrimary]
  have sorted := sortBy_pairwise (fun caret : Caret => caret.position.key) view.secondaries
  have distinct := isChain_destutter (· ≠ ·)
    (sortBy (fun caret : Caret => caret.position.key) view.secondaries)
  have sub := (filter_sublist (p := fun caret => !(caret = view.primary))).trans
    (destutter_sublist (· ≠ ·) (sortBy (fun caret : Caret => caret.position.key) view.secondaries))
  generalize ordered : ((sortBy (fun caret : Caret => caret.position.key)
    view.secondaries).destutter (· ≠ ·)).filter (fun caret => !(caret = view.primary)) = kept at sub ⊢
  -- The carets left are those there were, but for repeats.
  have same : ∀ caret, caret ∈ ({ view with secondaries := kept } : CaretView).carets ↔
      caret ∈ view.carets := by
    intro caret
    unfold carets
    rw [mem_cons, mem_cons]
    constructor
    · exact Or.imp_right fun mem => (mem_sortBy _).mp (sub.subset mem)
    · rintro (rfl | mem)
      · exact .inl rfl
      · by_cases isPrimary : caret = view.primary
        · exact .inl isPrimary
        · refine .inr ?_
          rw [← ordered, mem_filter]
          exact ⟨mem_destutter.mpr ((mem_sortBy _).mpr mem), by simpa using isPrimary⟩
  have apart : (∀ caret ∈ ({ view with secondaries := kept } : CaretView).carets,
      caret.selectionAnchor = none) → ({ view with secondaries := kept } : CaretView).carets.Pairwise
        fun a b => a.position ≠ b.position := by
    intro bare
    have runs := destutter_sublist (· ≠ ·)
      (sortBy (fun caret : Caret => caret.position.key) view.secondaries)
    have places := places_apart (sorted.sublist runs) distinct fun caret mem =>
      bare caret ((same caret).mpr (mem_cons_of_mem _ ((mem_sortBy _).mp (runs.subset mem))))
    refine pairwise_cons.mpr ⟨fun caret mem place => ?_, ?_⟩
    · have ne : caret ≠ view.primary := by
        rw [← ordered] at mem
        simpa using (mem_filter.mp mem).2
      have anchors := (bare caret (mem_cons_of_mem _ mem)).trans
        (bare view.primary mem_cons_self).symm
      refine ne ?_
      cases caret
      exact congrArg₂ Caret.mk place.symm anchors
    · rw [← ordered]
      exact places.sublist filter_sublist
  obtain ⟨lines, clear, inOrder, held, contained, primary⟩ :=
    mergeOverlappingCaretRanges_merges (sorted.sublist sub) apart
  refine ⟨lines, clear, inOrder, fun k => (held k).trans ?_,
    fun caret mem => contained caret ((same caret).mpr mem), primary⟩
  exact exists_congr fun caret => and_congr_left fun _ => same caret

/-- **Normalising a caret set** leaves carets that do not meet, in order, with the selections
there were, and nothing to normalise. -/
theorem dedupeSecondaryCaretsAgainstPrimary_normalises (view : CaretView) :
    view.Normalises view.dedupeSecondaryCaretsAgainstPrimary := by
  obtain ⟨lines, clear, sorted, held, contained, primary⟩ := dedupe_merges view
  refine ⟨lines, clear_accepted clear, fun position => held position.key, fun caret mem => ?_,
    primary, sorted, dedupe_eq_self clear sorted⟩
  obtain ⟨whole, memWhole, starts, stops⟩ := contained caret mem
  have inside : caret.startKey ≤ caret.position.key ∧ caret.position.key ≤ caret.stopKey := by
    unfold Caret.startKey Caret.stopKey
    by_cases bare : caret.Bare
    · rw [bare.start, bare.stop]
      exact ⟨le_rfl, le_rfl⟩
    · obtain ⟨anchor, -, ⟨lt, start, stop⟩ | ⟨lt, start, stop⟩⟩ := Caret.selection_cases bare
      · rw [start, stop]
        exact ⟨lt.le, le_rfl⟩
      · rw [start, stop]
        exact ⟨le_rfl, lt.le⟩
  exact ⟨whole, memWhole, starts.trans inside.1, inside.2.trans stops⟩

end Normalise

end Microide.Editor
