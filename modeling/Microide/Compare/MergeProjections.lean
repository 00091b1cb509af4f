/-
What a three-way merge gives back.

Each side's lines are the base patched by that side's changes; a hunk's text for a side
is the hunk's slice of the base patched by the side's changes in its group; and the
groups cut the sorted changes at positions no change crosses. So the walk over the
hunks, with one side chosen throughout, is the whole patch again.

**Main result.** `buildMergeModel_projections`.
-/

import Microide.Compare.MergeModel

namespace Microide.Compare

open List Lib Text DiffOp Or

/-! ### Changes read off the diff -/

/-- `cs` are ordered changes of `base` from `lo` on, a base line apart, and make `result`
out of the rest of the base. -/
structure PatchesTo (base : List Line) (lo : Nat) (cs : List SideChange) (result : List Line) :
    Prop where
  fits : Fits lo base.length cs
  separated : cs.Pairwise fun a b => a.stop < b.start
  patched : patch base lo base.length cs = result

/-- One loop of `BuildSideChanges`, from any point of the operations on. The induction is
on the operations; the change being collected starts where the patch resumes. -/
theorem sideChangesFrom_patchesTo {base : List Line} (ops : List DiffOp) (b : Nat)
    (pending : Option SideChange) (hb : b ≤ base.length)
    (hsource : source (ops.map edit) = base.drop b)
    (hkept : ∀ l r, Edit.keep l r ∈ ops.map edit → l = r)
    (hpending : ∀ c ∈ pending, c.start ≤ b ∧ c.stop = b) :
    PatchesTo base ((pending.map Change.start).getD b) (sideChangesFrom b pending ops)
      ((pending.map Change.lines).getD [] ++ target (ops.map edit)) := by
  induction ops generalizing b pending with
  | nil =>
      have hend : b = base.length := by
        have hlen := congrArg List.length hsource
        simp at hlen
        omega
      cases pending with
      | none => exact ⟨hb, by simp [sideChangesFrom], by simp [sideChangesFrom, hend]⟩
      | some c =>
          obtain ⟨hstart, hstop⟩ := hpending c rfl
          refine ⟨⟨Nat.le_refl _, by omega, by simp only [Fits]; omega⟩, by simp [sideChangesFrom], ?_⟩
          simp [sideChangesFrom, patch_cons, hstop, hend]
  | cons op ops ih =>
      have hkept' : ∀ l r, Edit.keep l r ∈ ops.map edit → l = r :=
        fun l r h => hkept l r (mem_cons_of_mem _ h)
      have hdrop : ∀ {line rest}, line :: rest = base.drop b →
          base[b]? = some line ∧ rest = base.drop (b + 1) := by
        intro line rest h
        have hget : (base.drop b)[0]? = some line := by rw [← h]; rfl
        refine ⟨by simpa using hget, ?_⟩
        rw [← drop_drop, ← h]
        rfl
      obtain ⟨kind, text, rightText⟩ := op
      cases kind with
      | equal =>
          obtain ⟨hget, hrest⟩ := hdrop hsource
          have hlt : b < base.length := (List.getElem?_eq_some_iff.mp hget).1
          obtain rfl : text = rightText := hkept _ _ mem_cons_self
          have hnext := ih (b + 1) none hlt hrest hkept' (by simp)
          simp only [Option.map_none, Option.getD_none] at hnext
          -- the matched line separates what is pending from every later change
          have hpatch : patch base b base.length (sideChangesFrom (b + 1) none ops)
              = text :: target (ops.map edit) := by
            rw [patch_gap base (Nat.le_succ b) hnext.fits, hnext.patched,
              slice_eq_cons base (Nat.lt_succ_self b) hget, slice_self]
            rfl
          cases pending with
          | none =>
              exact ⟨hnext.fits.mono (Nat.le_succ b) (Nat.le_refl _), hnext.separated, hpatch⟩
          | some c =>
              obtain ⟨hstart, hstop⟩ := hpending c rfl
              refine ⟨⟨Nat.le_refl _, by omega, ?_⟩, ?_, ?_⟩
              · exact hnext.fits.mono (by omega) (Nat.le_refl _)
              · refine pairwise_cons.mpr ⟨fun d hd => ?_, hnext.separated⟩
                have := (hnext.fits.mem hd).1
                omega
              · show patch base c.start base.length (c :: sideChangesFrom (b + 1) none ops)
                  = c.lines ++ text :: target (ops.map edit)
                rw [patch_cons, hstop, hpatch, slice_self, nil_append]
      | delete =>
          obtain ⟨hget, hrest⟩ := hdrop hsource
          have hlt : b < base.length := (List.getElem?_eq_some_iff.mp hget).1
          cases pending with
          | none =>
              exact ih (b + 1) (some { start := b, stop := b + 1, lines := [] }) hlt hrest hkept'
                (by simp)
          | some c =>
              obtain ⟨hstart, hstop⟩ := hpending c rfl
              exact ih (b + 1) (some { c with stop := b + 1 }) hlt hrest hkept' (by simp; omega)
      | insert =>
          have hrest : source (ops.map edit) = base.drop b := hsource
          cases pending with
          | none =>
              exact ih b (some { start := b, stop := b, lines := [text] }) hb hrest hkept' (by simp)
          | some c =>
              have hnext := ih b (some { c with lines := c.lines ++ [text] }) hb hrest hkept' (by
                simpa using hpending)
              show PatchesTo base c.start
                (sideChangesFrom b (some { c with lines := c.lines ++ [text] }) ops)
                (c.lines ++ text :: target (ops.map edit))
              rw [append_cons c.lines text (target _)]
              exact hnext

/-- The changes `BuildSideChanges` finds make the variant out of the base. -/
theorem buildSideChanges_patchesTo (baseLines variantLines : List Line) :
    PatchesTo baseLines 0 (buildSideChanges baseLines variantLines) variantLines := by
  have haligns := buildLineDiffOps_aligns baseLines variantLines {}
  have hspec := sideChangesFrom_patchesTo (buildLineDiffOps baseLines variantLines) 0 none
    (Nat.zero_le baseLines.length) haligns.source_eq
    (fun l r h => by simpa [linesEqualForDiff_iff, lineKey] using haligns.kept l r h) (by simp)
  rw [haligns.target_eq] at hspec
  exact hspec

/-! ### The phantom line -/

theorem splitLineViews_getLast? {source : List UInt8} (h : hasPhantom source = true) :
    (splitLineViews source).getLast? = some [] := by
  rcases eq_nil_or_concat' source with rfl | ⟨init, last, rfl⟩
  · rfl
  · have hlast : last = lf := by simpa [hasPhantom] using h
    rw [hlast]
    exact splitLineViews_concat_lf init

variable {cs : List SideChange}

/-- Cutting an equal last line off both sides before the diff, and keeping it after:
the changes of the shorter lists still make the variant out of the base. -/
theorem PatchesTo.extend {base result : List Line} (h : PatchesTo base 0 cs result)
    (more : List Line) : PatchesTo (base ++ more) 0 cs (result ++ more) := by
  have hlen : base.length ≤ (base ++ more).length := by simp
  refine ⟨h.fits.mono (Nat.le_refl _) hlen, h.separated, ?_⟩
  have hcut := patch_append (base ++ more) h.fits
    (show Fits base.length (base ++ more).length [] from hlen)
  rw [append_nil, patch_nil, patch_append_base base more h.fits (Nat.le_refl _),
    h.patched, slice_to_end _ _ (Nat.le_refl _), drop_left] at hcut
  exact hcut

/-- The changes `BuildMergeModel` works with, phantom or not, make the side's lines out of
the base's lines. -/
theorem sideChanges_patchesTo (base variant : List UInt8) (phantomsAgree : Bool)
    (hbase : phantomsAgree = true → hasPhantom base = true)
    (hvariant : phantomsAgree = true → hasPhantom variant = true) :
    let realLines (lines : List Line) : List Line :=
      lines.take (if phantomsAgree && !lines.isEmpty then lines.length - 1 else lines.length)
    PatchesTo (splitLineViews base) 0
      (buildSideChanges (realLines (splitLineViews base)) (realLines (splitLineViews variant)))
      (splitLineViews variant) := by
  intro realLines
  cases phantomsAgree with
  | false =>
      have hreal : ∀ lines : List Line, realLines lines = lines := by
        intro lines
        simp [realLines]
      rw [hreal, hreal]
      exact buildSideChanges_patchesTo _ _
  | true =>
      have hreal : ∀ lines : List Line, lines.getLast? = some [] →
          lines = realLines lines ++ [[]] := by
        intro lines hlast
        obtain ⟨init, rfl⟩ := getLast?_eq_some_iff.mp hlast
        simp [realLines]
      have h := (buildSideChanges_patchesTo (realLines (splitLineViews base))
        (realLines (splitLineViews variant))).extend [[]]
      rwa [← hreal _ (splitLineViews_getLast? (hbase rfl)),
        ← hreal _ (splitLineViews_getLast? (hvariant rfl))] at h

/-! ### Sorting and grouping -/

theorem start_lt_of_separated {lo hi : Nat} (hfits : Fits lo hi cs)
    (h : cs.Pairwise fun a b => a.stop < b.start) : cs.Pairwise fun a b => a.start < b.start := by
  refine h.imp_of_mem ?_
  intro a b ha _ hab
  have := (hfits.mem ha).2.1
  omega

theorem taggedChangeLe_iff (a b : TaggedChange) : taggedChangeLe a b = true ↔
    a.change.start < b.change.start ∨ (a.change.start = b.change.start ∧
      (a.change.stop < b.change.stop ∨ (a.change.stop = b.change.stop ∧
        (a.side = .incoming ∨ b.side = .current)))) := by
  unfold taggedChangeLe
  split
  · simp only [decide_eq_true_eq]
    omega
  · split
    · simp only [decide_eq_true_eq]
      omega
    · simp only [decide_eq_true_eq]
      exact ⟨fun h => inr ⟨by omega, inr ⟨by omega, h⟩⟩, by
        rintro (h | ⟨-, h | ⟨-, h⟩⟩)
        · omega
        · omega
        · exact h⟩

theorem pairwise_mergeSort_taggedChangeLe (cs : List TaggedChange) :
    (cs.mergeSort taggedChangeLe).Pairwise fun a b => taggedChangeLe a b = true := by
  refine pairwise_mergeSort ?_ ?_ cs
  · intro a b c hab hbc
    rw [taggedChangeLe_iff] at hab hbc ⊢
    rcases hab with hab | ⟨hab, hab' | ⟨hab', hside⟩⟩ <;>
      rcases hbc with hbc | ⟨hbc, hbc' | ⟨hbc', hside'⟩⟩ <;> try omega
    refine inr ⟨by omega, inr ⟨by omega, ?_⟩⟩
    rcases hside with h | h
    · exact inl h
    · exact hside'.imp (fun h' => by rw [h] at h'; cases h') id
  · intro a b
    rw [Bool.or_eq_true, taggedChangeLe_iff, taggedChangeLe_iff]
    cases ha : a.side <;> cases hb : b.side <;> simp <;> omega

theorem mergeSort_taggedChangeLe_start (cs : List TaggedChange) :
    (cs.mergeSort taggedChangeLe).Pairwise fun a b => a.change.start ≤ b.change.start := by
  refine (pairwise_mergeSort_taggedChangeLe cs).imp ?_
  intro a b hab
  rw [taggedChangeLe_iff] at hab
  omega

/-- Taking one side out of the sorted changes gives that side's changes back, in
order. -/
theorem changesOfSide_mergeSort {incoming current : List SideChange} {side : MergeSide}
    (hside : changesOfSide side (taggedChanges incoming .incoming ++ taggedChanges current .current)
      = cs)
    (hstart : cs.Pairwise fun a b => a.start < b.start) :
    changesOfSide side ((taggedChanges incoming .incoming ++
      taggedChanges current .current).mergeSort taggedChangeLe) = cs := by
  have hperm : List.Perm (changesOfSide side ((taggedChanges incoming .incoming ++
      taggedChanges current .current).mergeSort taggedChangeLe)) cs := by
    rw [← hside]
    exact ((mergeSort_perm _ _).filter _).map _
  have hsorted : (changesOfSide side ((taggedChanges incoming .incoming ++
      taggedChanges current .current).mergeSort taggedChangeLe)).Pairwise
      fun a b => a.start ≤ b.start :=
    pairwise_map.mpr ((mergeSort_taggedChangeLe_start _).filter _)
  refine hperm.eq_of_pairwise ?_ hsorted (hstart.imp Nat.le_of_lt)
  intro a b ha hb hab hba
  -- two changes of one side with one start are the same change
  obtain ⟨i, hi, rfl⟩ := getElem_of_mem (hperm.mem_iff.mp ha)
  obtain ⟨j, hj, rfl⟩ := getElem_of_mem hb
  have hget := pairwise_iff_getElem.mp hstart
  rcases Nat.lt_trichotomy i j with hlt | rfl | hgt
  · have := hget i j hi hj hlt
    omega
  · rfl
  · have := hget j i hj hi hgt
    omega

/-! ### Groups -/

/-- Groups are cut apart by at least one base line no change of either reaches. -/
def Apart (g g' : List TaggedChange) : Prop :=
  ∀ c ∈ g, ∀ c' ∈ g', c.change.stop < c'.change.start

theorem groupChanges_spec (rest group : List TaggedChange) (maxEnd : Nat)
    (hsorted : (group ++ rest).Pairwise fun a b => a.change.start ≤ b.change.start)
    (hmax : ∀ c ∈ group, c.change.stop ≤ maxEnd) :
    (groupChanges group maxEnd rest).flatten = group ++ rest ∧
      (∀ g ∈ groupChanges group maxEnd rest, g ≠ []) ∧
      (groupChanges group maxEnd rest).Pairwise Apart := by
  induction rest generalizing group maxEnd with
  | nil =>
      rw [groupChanges]
      split
      · next hempty =>
        obtain rfl := List.isEmpty_iff.mp hempty
        simp
      · next hne => exact ⟨by simp, by simpa using hne, by simp⟩
  | cons c cs ih =>
      rw [groupChanges]
      split
      · obtain ⟨hflat, hne, hapart⟩ := ih (group ++ [c]) (max maxEnd c.change.stop)
          (by simpa using hsorted) (by
            intro d hd
            rcases mem_append.mp hd with hd | hd
            · have := hmax d hd
              omega
            · obtain rfl := mem_singleton.mp hd
              omega)
        exact ⟨by rw [hflat]; simp, hne, hapart⟩
      · next hjoin =>
        simp only [Bool.or_eq_true, List.isEmpty_iff, decide_eq_true_eq, not_or] at hjoin
        obtain ⟨-, htail, -⟩ := pairwise_append.mp hsorted
        obtain ⟨hflat, hne, hapart⟩ := ih [c] (max 0 c.change.stop) (by simpa using htail) (by simp)
        refine ⟨by rw [flatten_cons, hflat]; simp, ?_, ?_⟩
        · exact forall_mem_cons.mpr ⟨hjoin.1, hne⟩
        · refine pairwise_cons.mpr ⟨fun g' hg' d hd d' hd' => ?_, hapart⟩
          -- everything after the cut starts past the end of the group
          have hmem : d' ∈ c :: cs := by
            have : d' ∈ (groupChanges [c] (max 0 c.change.stop) cs).flatten :=
              mem_flatten.mpr ⟨g', hg', hd'⟩
            rw [hflat] at this
            simpa using this
          have hle : c.change.start ≤ d'.change.start := by
            rcases mem_cons.mp hmem with rfl | hmem
            · exact Nat.le_refl _
            · exact (pairwise_cons.mp htail).1 d' hmem
          have := hmax d hd
          omega

/-! ### Hunks -/

theorem foldl_min_le (f : TaggedChange → Nat) (g : List TaggedChange) (init : Nat) :
    g.foldl (fun b c => min b (f c)) init ≤ init ∧
      (∀ c ∈ g, g.foldl (fun b c => min b (f c)) init ≤ f c) ∧
      (g.foldl (fun b c => min b (f c)) init = init ∨
        ∃ c ∈ g, g.foldl (fun b c => min b (f c)) init = f c) := by
  induction g generalizing init with
  | nil => simp
  | cons c g ih =>
      obtain ⟨hinit, hle, hattained⟩ := ih (min init (f c))
      rw [foldl_cons]
      refine ⟨by omega, forall_mem_cons.mpr ⟨by omega, hle⟩, ?_⟩
      rcases hattained with h | ⟨d, hd, h⟩
      · rcases Nat.le_total init (f c) with hc | hc
        · exact inl (by rw [h, Nat.min_eq_left hc])
        · exact inr ⟨c, mem_cons_self, by rw [h, Nat.min_eq_right hc]⟩
      · exact inr ⟨d, mem_cons_of_mem _ hd, h⟩

theorem le_foldl_max (f : TaggedChange → Nat) (g : List TaggedChange) (init : Nat) :
    init ≤ g.foldl (fun e c => max e (f c)) init ∧
      (∀ c ∈ g, f c ≤ g.foldl (fun e c => max e (f c)) init) ∧
      (g.foldl (fun e c => max e (f c)) init = init ∨
        ∃ c ∈ g, g.foldl (fun e c => max e (f c)) init = f c) := by
  induction g generalizing init with
  | nil => simp
  | cons c g ih =>
      obtain ⟨hinit, hle, hattained⟩ := ih (max init (f c))
      rw [foldl_cons]
      refine ⟨by omega, forall_mem_cons.mpr ⟨by omega, hle⟩, ?_⟩
      rcases hattained with h | ⟨d, hd, h⟩
      · rcases Nat.le_total init (f c) with hc | hc
        · exact inr ⟨c, mem_cons_self, by rw [h, Nat.max_eq_right hc]⟩
        · exact inl (by rw [h, Nat.max_eq_left hc])
      · exact inr ⟨d, mem_cons_of_mem _ hd, h⟩

variable {g : List TaggedChange}

/-- A hunk spans its group: every change lies inside, and both ends are reached. -/
theorem flushGroup_range (baseLines : List Line) (hne : g ≠ []) :
    (∀ c ∈ g, (flushGroup baseLines g).baseStart ≤ c.change.start ∧
        c.change.stop ≤ (flushGroup baseLines g).baseEnd) ∧
      (∃ c ∈ g, (flushGroup baseLines g).baseStart = c.change.start) ∧
      ∃ c ∈ g, (flushGroup baseLines g).baseEnd = c.change.stop := by
  obtain ⟨first, rest, rfl⟩ := exists_cons_of_ne_nil hne
  obtain ⟨-, hmin, hmin'⟩ := foldl_min_le (fun c => c.change.start) (first :: rest)
    first.change.start
  obtain ⟨-, hmax, hmax'⟩ := le_foldl_max (fun c => c.change.stop) (first :: rest) first.change.stop
  refine ⟨fun c hc => ⟨hmin c hc, hmax c hc⟩, ?_, ?_⟩
  · exact hmin'.elim (fun h => ⟨first, mem_cons_self, h⟩) id
  · exact hmax'.elim (fun h => ⟨first, mem_cons_self, h⟩) id

/-- On fitting changes the clamps of `ApplySideChangesToSlice` do nothing. -/
theorem applySortedChanges_eq_patch {baseLines : List Line} {stop cursor : Nat}
    {changes : List SideChange} (h : Fits cursor stop changes) :
    applySortedChanges baseLines stop cursor changes = patch baseLines cursor stop changes := by
  induction changes generalizing cursor with
  | nil => rfl
  | cons change changes ih =>
      have hstop := h.2.2.le
      have hunchanged : clamp change.start cursor stop = change.start := by
        have := h.1
        have := h.2.1
        simp only [clamp]
        split <;> [omega; split <;> omega]
      have hcursor : clamp change.stop change.start stop = change.stop := by
        have := h.2.1
        simp only [clamp]
        split <;> [omega; split <;> omega]
      simp only [applySortedChanges, patch_cons, hunchanged, hcursor, ih h.2.2]

theorem applySideChangesToSlice_eq_patch {baseLines : List Line} {start stop : Nat}
    {changes : List SideChange} (h : Fits start stop changes)
    (hstart : changes.Pairwise fun a b => a.start < b.start) :
    applySideChangesToSlice baseLines start stop changes = patch baseLines start stop changes := by
  have hsorted : changes.Pairwise fun a b => sideChangeLe a b = true := by
    refine hstart.imp ?_
    intro a b hab
    rw [sideChangeLe, if_pos (by omega)]
    simpa using hab
  rw [applySideChangesToSlice, mergeSort_of_pairwise hsorted, applySortedChanges_eq_patch h]

/-- The hunk's chosen text is its slice of the base patched by `cs`. -/
structure Carries (base : List Line) (hunk : MergeHunk) (cs : List SideChange) : Prop where
  bounded : hunk.baseEnd ≤ base.length
  fits : Fits hunk.baseStart hunk.baseEnd cs
  lines : (mergeChoiceLineViews hunk hunk.choice).1 ++ (mergeChoiceLineViews hunk hunk.choice).2
    = patch base hunk.baseStart hunk.baseEnd cs

/-- The walk over ordered hunks that each carry some changes is one patch by all of
them. -/
theorem mergeResultFrom_eq_patch {base : List Line} {hunks : List MergeHunk}
    {css : List (List SideChange)} (h : List.Forall₂ (Carries base) hunks css)
    (hapart : hunks.Pairwise fun a b => a.baseEnd < b.baseStart) (cursor : Nat)
    (hcursor : cursor ≤ base.length) (hfirst : ∀ hunk ∈ hunks, cursor ≤ hunk.baseStart) :
    Fits cursor base.length css.flatten ∧
      mergeResultFrom base false cursor hunks = patch base cursor base.length css.flatten := by
  induction h generalizing cursor with
  | nil => exact ⟨hcursor, rfl⟩
  | @cons hunk cs hunks css hcarries _ ih =>
      obtain ⟨hnext, hapart'⟩ := pairwise_cons.mp hapart
      obtain ⟨hfits, hwalk⟩ := ih hapart' hunk.baseEnd hcarries.bounded
        fun hunk' hmem => Nat.le_of_lt (hnext hunk' hmem)
      have hstart := hfirst hunk mem_cons_self
      have hall : Fits hunk.baseStart base.length (cs ++ css.flatten) := hcarries.fits.append hfits
      refine ⟨hall.mono hstart (Nat.le_refl _), ?_⟩
      rw [flatten_cons, patch_gap base hstart hall, patch_append base hcarries.fits hfits,
        ← hwalk, ← hcarries.lines, ← append_assoc]
      rfl

/-- The changes whose text a choice shows; the choice of the base shows none. -/
def chosenChanges (choice : MergeChoice) (group : List TaggedChange) : List SideChange :=
  match choice with
  | .incoming => changesOfSide .incoming group
  | .current => changesOfSide .current group
  | _ => []

/-- The one version of the file a choice stands for. -/
def IsVersion (choice : MergeChoice) : Prop :=
  choice = .base ∨ choice = .incoming ∨ choice = .current

theorem changesOfSide_flatten (side : MergeSide) (groups : List (List TaggedChange)) :
    changesOfSide side groups.flatten = (groups.map (changesOfSide side)).flatten := by
  induction groups with
  | nil => rfl
  | cons g groups ih =>
      rw [flatten_cons, map_cons, flatten_cons, ← ih]
      simp [changesOfSide]

theorem chosenChanges_flatten (choice : MergeChoice) (groups : List (List TaggedChange)) :
    chosenChanges choice groups.flatten = (groups.map (chosenChanges choice)).flatten := by
  cases choice with
  | incoming => exact changesOfSide_flatten .incoming groups
  | current => exact changesOfSide_flatten .current groups
  | _ => simp [chosenChanges]

/-- Everything the proofs below use of the changes that go into the hunks. -/
structure GroupsSound (base : List Line) (groups : List (List TaggedChange)) : Prop where
  nonempty : ∀ g ∈ groups, g ≠ []
  apart : groups.Pairwise Apart
  fits : ∀ side, Fits 0 base.length (changesOfSide side groups.flatten)
  increasing : ∀ side, (changesOfSide side groups.flatten).Pairwise fun a b => a.start < b.start

variable {choice : MergeChoice}

namespace GroupsSound

variable {base : List Line} {groups : List (List TaggedChange)}

section

variable (h : GroupsSound base groups)

include h

/-- A single change of a group is ordered and inside the base. -/
theorem change_bounds (hg : g ∈ groups) {c : TaggedChange} (hc : c ∈ g) :
    c.change.start ≤ c.change.stop ∧ c.change.stop ≤ base.length := by
  have hmem : c.change ∈ changesOfSide c.side groups.flatten :=
    mem_map.mpr ⟨c, mem_filter.mpr ⟨mem_flatten.mpr ⟨g, hg, hc⟩, by simp⟩, rfl⟩
  exact ((h.fits c.side).mem hmem).2

theorem hunk_bounds (hg : g ∈ groups) :
    (flushGroup base g).baseStart ≤ (flushGroup base g).baseEnd ∧
      (flushGroup base g).baseEnd ≤ base.length := by
  obtain ⟨hin, -, c, hc, hend⟩ := flushGroup_range base (h.nonempty g hg)
  have hbounds := h.change_bounds hg hc
  have := (hin c hc).1
  omega

theorem hunks_apart :
    groups.Pairwise fun g g' => (flushGroup base g).baseEnd < (flushGroup base g').baseStart := by
  refine h.apart.imp_of_mem ?_
  intro g g' hg hg' hapart
  obtain ⟨-, -, c, hc, hend⟩ := flushGroup_range base (h.nonempty g hg)
  obtain ⟨-, ⟨c', hc', hstart⟩, -⟩ := flushGroup_range base (h.nonempty g' hg')
  rw [hend, hstart]
  exact hapart c hc c' hc'

/-- One side's changes of one group fit into the hunk and are in order. -/
theorem group_side (hg : g ∈ groups) (side : MergeSide) :
    Fits (flushGroup base g).baseStart (flushGroup base g).baseEnd (changesOfSide side g) ∧
      (changesOfSide side g).Pairwise fun a b => a.start < b.start := by
  obtain ⟨before, after, rfl⟩ := append_of_mem hg
  have hfits := h.fits side
  have hincreasing := h.increasing side
  rw [flatten_append, flatten_cons] at hfits hincreasing
  simp only [changesOfSide, filter_append, map_append] at hfits hincreasing
  refine ⟨?_, ?_⟩
  · refine hfits.append_right.append_left.restrict (h.hunk_bounds hg).1 ?_
    intro c hc
    obtain ⟨t, ht, rfl⟩ := mem_map.mp hc
    exact (flushGroup_range base (h.nonempty g hg)).1 t (mem_filter.mp ht).1
  · exact (pairwise_append.mp (pairwise_append.mp hincreasing).2.1).1

/-- With a version chosen, a hunk carries that version's changes of its group. -/
theorem carries (hversion : IsVersion choice) (hg : g ∈ groups) (index : Nat) :
    Carries base { flushGroup base g with index, choice } (chosenChanges choice g) := by
  have hside : ∀ side, applySideChangesToSlice base (flushGroup base g).baseStart
      (flushGroup base g).baseEnd (changesOfSide side g) = _ := fun side =>
    applySideChangesToSlice_eq_patch (h.group_side hg side).1 (h.group_side hg side).2
  rcases hversion with rfl | rfl | rfl
  · refine ⟨(h.hunk_bounds hg).2, (h.hunk_bounds hg).1, ?_⟩
    exact append_nil _
  · refine ⟨(h.hunk_bounds hg).2, (h.group_side hg .incoming).1, ?_⟩
    exact (append_nil _).trans (hside .incoming)
  · refine ⟨(h.hunk_bounds hg).2, (h.group_side hg .current).1, ?_⟩
    exact (append_nil _).trans (hside .current)

end

end GroupsSound

/-! ### The model as a whole -/

/-- The changes of the two sides, sorted, as `BuildMergeModel` groups them. -/
def mergeChanges (base incoming current : List UInt8) : List TaggedChange :=
  let phantomsAgree := hasPhantom base && hasPhantom incoming && hasPhantom current
  let realLines (lines : List Line) : List Line :=
    lines.take (if phantomsAgree && !lines.isEmpty then lines.length - 1 else lines.length)
  (taggedChanges (buildSideChanges (realLines (splitLineViews base))
      (realLines (splitLineViews incoming))) .incoming ++
    taggedChanges (buildSideChanges (realLines (splitLineViews base))
      (realLines (splitLineViews current))) .current).mergeSort taggedChangeLe

theorem changesOfSide_taggedChanges (incoming current : List SideChange) :
    changesOfSide .incoming (taggedChanges incoming .incoming ++ taggedChanges current .current)
        = incoming ∧
      changesOfSide .current (taggedChanges incoming .incoming ++ taggedChanges current .current)
        = current := by
  simp [changesOfSide, taggedChanges, filter_map, Function.comp_def]

/-- What the sorted changes hold: each side's own changes, which make that side's lines. -/
theorem mergeChanges_patchesTo (base incoming current : List UInt8) :
    PatchesTo (splitLineViews base) 0 (changesOfSide .incoming (mergeChanges base incoming current))
        (splitLineViews incoming) ∧
      PatchesTo (splitLineViews base) 0 (changesOfSide .current (mergeChanges base incoming current))
        (splitLineViews current) := by
  have hincoming := sideChanges_patchesTo base incoming
    (hasPhantom base && hasPhantom incoming && hasPhantom current)
    (by simp only [Bool.and_eq_true]; exact fun h => h.1.1)
    (by simp only [Bool.and_eq_true]; exact fun h => h.1.2)
  have hcurrent := sideChanges_patchesTo base current
    (hasPhantom base && hasPhantom incoming && hasPhantom current)
    (by simp only [Bool.and_eq_true]; exact fun h => h.1.1)
    (by simp only [Bool.and_eq_true]; exact fun h => h.2)
  obtain ⟨hinc, hcur⟩ := changesOfSide_taggedChanges (buildSideChanges _ _) (buildSideChanges _ _)
  refine ⟨?_, ?_⟩
  · rw [mergeChanges, changesOfSide_mergeSort hinc
      (start_lt_of_separated hincoming.fits hincoming.separated)]
    exact hincoming
  · rw [mergeChanges, changesOfSide_mergeSort hcur
      (start_lt_of_separated hcurrent.fits hcurrent.separated)]
    exact hcurrent

/-- The groups `BuildMergeModel` flushes into hunks. -/
def mergeGroups (base incoming current : List UInt8) : List (List TaggedChange) :=
  groupChanges [] 0 (mergeChanges base incoming current)

theorem mergeGroups_flatten (base incoming current : List UInt8) :
    (mergeGroups base incoming current).flatten = mergeChanges base incoming current :=
  (groupChanges_spec _ [] 0 (mergeSort_taggedChangeLe_start _) (by simp)).1

theorem mergeGroups_sound (base incoming current : List UInt8) :
    GroupsSound (splitLineViews base) (mergeGroups base incoming current) := by
  obtain ⟨-, hne, hapart⟩ := groupChanges_spec (mergeChanges base incoming current) [] 0
    (mergeSort_taggedChangeLe_start _) (by simp)
  obtain ⟨hincoming, hcurrent⟩ := mergeChanges_patchesTo base incoming current
  refine ⟨hne, hapart, ?_, ?_⟩
  · intro side
    rw [mergeGroups_flatten]
    cases side with
    | incoming => exact hincoming.fits
    | current => exact hcurrent.fits
  · intro side
    rw [mergeGroups_flatten]
    cases side with
    | incoming => exact start_lt_of_separated hincoming.fits hincoming.separated
    | current => exact start_lt_of_separated hcurrent.fits hcurrent.separated

/-- The groups come out in order, so sorting the hunks changes nothing. -/
theorem buildMergeModel_hunks (base incoming current : List UInt8) :
    (buildMergeModel base incoming current).hunks =
      (mergeGroups base incoming current).mapIdx fun i g =>
        { flushGroup (splitLineViews base) g with index := i } := by
  have hsound := mergeGroups_sound base incoming current
  have hsorted : ((mergeGroups base incoming current).map (flushGroup (splitLineViews base))).Pairwise
      fun a b => hunkLe a b = true := by
    refine pairwise_map.mpr (hsound.hunks_apart.imp_of_mem ?_)
    intro g g' hg _ hlt
    have := (hsound.hunk_bounds hg).1
    rw [hunkLe, if_pos (by omega)]
    simp only [decide_eq_true_eq]
    omega
  show (((mergeGroups base incoming current).map (flushGroup (splitLineViews base))).mergeSort
    hunkLe).mapIdx _ = _
  rw [mergeSort_of_pairwise hsorted]
  exact ext_getElem (by simp) fun i _ _ => by simp

/-- Choosing one version throughout patches the base by that version's changes. -/
theorem mergeResultFrom_chooseAll (base incoming current : List UInt8)
    (hversion : IsVersion choice) :
    mergeResultFrom (splitLineViews base) false 0
        (chooseAll choice (buildMergeModel base incoming current)).hunks =
      patch (splitLineViews base) 0 (splitLineViews base).length
        (chosenChanges choice (mergeChanges base incoming current)) := by
  have hsound := mergeGroups_sound base incoming current
  have hhunks : (chooseAll choice (buildMergeModel base incoming current)).hunks =
      (mergeGroups base incoming current).mapIdx fun i g =>
        { flushGroup (splitLineViews base) g with index := i, choice } := by
    rw [chooseAll, buildMergeModel_hunks]
    exact ext_getElem (by simp) fun i _ _ => by simp
  rw [hhunks, ← mergeGroups_flatten, chosenChanges_flatten]
  refine (mergeResultFrom_eq_patch ?_ ?_ 0 (Nat.zero_le _) (fun _ _ => Nat.zero_le _)).2
  · refine forall₂_iff_get.mpr ⟨by simp, ?_⟩
    intro i hi hi'
    simp only [get_eq_getElem, getElem_mapIdx, getElem_map]
    exact hsound.carries hversion (getElem_mem _) i
  · refine pairwise_iff_getElem.mpr ?_
    intro i j hi hj hij
    simp only [getElem_mapIdx]
    exact pairwise_iff_getElem.mp hsound.hunks_apart i j _ _ hij

theorem mergeResultLines_chooseAll {base incoming current : List UInt8}
    (hversion : IsVersion choice) {lines : List UInt8}
    (hpatch : patch (splitLineViews base) 0 (splitLineViews base).length
      (chosenChanges choice (mergeChanges base incoming current)) = splitLineViews lines) :
    mergeResultLines (chooseAll choice (buildMergeModel base incoming current))
      = splitLineViews lines := by
  have hwalk := (mergeResultFrom_chooseAll base incoming current hversion).trans hpatch
  have hlines : (chooseAll choice (buildMergeModel base incoming current)).baseLines
      = splitLineViews base := rfl
  rw [mergeResultLines, collectMergeResultLines, hlines, hwalk,
    if_neg (by simpa using splitLineViews_ne_nil lines)]

/-- **Three-way merge projections.** In the model built from any three texts, taking the
incoming side of every hunk gives the incoming text's lines, the current side the
current text's lines, and the base side the base text's lines. The hunks' base ranges
lie in the base and are sorted, and between any two of them stands at least one base
line that belongs to neither. -/
theorem buildMergeModel_projections (base incoming current : List UInt8) :
    let model := buildMergeModel base incoming current
    mergeResultLines (chooseAll .incoming model) = splitLineViews incoming ∧
      mergeResultLines (chooseAll .current model) = splitLineViews current ∧
      mergeResultLines (chooseAll .base model) = splitLineViews base ∧
      (∀ hunk ∈ model.hunks, hunk.baseStart ≤ hunk.baseEnd ∧
        hunk.baseEnd ≤ model.baseLines.length) ∧
      model.hunks.Pairwise fun a b => ∃ line, (a.baseEnd ≤ line ∧ line < b.baseStart) ∧
        line < model.baseLines.length := by
  intro model
  obtain ⟨hincoming, hcurrent⟩ := mergeChanges_patchesTo base incoming current
  have hsound := mergeGroups_sound base incoming current
  refine ⟨?_, ?_, ?_, ?_, ?_⟩
  · exact mergeResultLines_chooseAll (Or.inr (Or.inl rfl)) hincoming.patched
  · exact mergeResultLines_chooseAll (Or.inr (Or.inr rfl)) hcurrent.patched
  · exact mergeResultLines_chooseAll (Or.inl rfl) (slice_whole _)
  · intro hunk hmem
    rw [buildMergeModel_hunks] at hmem
    obtain ⟨i, hi, rfl⟩ := mem_mapIdx.mp hmem
    exact hsound.hunk_bounds (getElem_mem _)
  · rw [buildMergeModel_hunks]
    refine pairwise_iff_getElem.mpr ?_
    intro i j hi hj hij
    rw [length_mapIdx] at hi hj
    have hlt := pairwise_iff_getElem.mp hsound.hunks_apart i j hi hj hij
    obtain ⟨hle, hbound⟩ := hsound.hunk_bounds (getElem_mem hj)
    simp only [getElem_mapIdx]
    exact ⟨_, ⟨Nat.le_refl _, hlt⟩, Nat.lt_of_lt_of_le hlt (Nat.le_trans hle hbound)⟩

end Microide.Compare
