/-
Patches of a list, kept against the list as it is now.

`Replaces` is one replaced range. `Installs q patches pre post` keeps several of them while
the list goes on changing: a patch knows where its new content stands in `post`, what that
content is and what it stands for in `pre`; where it stood in `pre` follows from the
patches below it.

**Main results.** A further replacement of a range of `post` is taken in by
`Installs.insert` where it meets no patch and by `Installs.inside` where it lies within
one; touching patches are one patch (`Installs.join`); `Installs.splits` gives the places
in `pre`.
-/

import Microide.Lib.DisjointParts

namespace Microide.Lib

open List

variable {α : Type*}

/-! ### One replaced range -/

/-- `after` stands at `start` in `post`, where `before` stood in `pre`. -/
def Replaces (start : Nat) (before after pre post : List α) : Prop :=
  ∃ front rest, pre = front ++ before ++ rest ∧ post = front ++ after ++ rest ∧
    front.length = start

namespace Replaces

variable {start start' : Nat} {before after before' after' pre mid post : List α}

section

variable (h : Replaces start before after pre post)

include h

theorem swap : Replaces start after before post pre := by
  obtain ⟨front, rest, hpre, hpost, hfront⟩ := h
  exact ⟨front, rest, hpost, hpre, hfront⟩

theorem splice_eq : splice pre start before.length after = post := by
  obtain ⟨front, rest, rfl, rfl, rfl⟩ := h
  exact splice_middle _ _ _ _ rfl rfl

theorem start_add_le : start + before.length ≤ pre.length := by
  obtain ⟨front, rest, rfl, -, rfl⟩ := h
  rw [length_append, length_append]
  exact Nat.le_add_right _ _

theorem take_drop : (pre.drop start).take before.length = before := by
  obtain ⟨front, rest, rfl, -, rfl⟩ := h
  rw [append_assoc, drop_left, take_left]

theorem length_eq : post.length + before.length = pre.length + after.length := by
  obtain ⟨front, rest, rfl, rfl, -⟩ := h
  simp only [length_append]
  omega

end

theorem splits_iff : Splits 0 0 [⟨start, start, before, after⟩] pre post ↔
    Replaces start before after pre post := by
  constructor
  · intro h
    obtain ⟨front, rest, hpre, hpost, hfront, -⟩ := h.single_inv
    exact ⟨front, rest, hpre, hpost, hfront.symm⟩
  · rintro ⟨front, rest, rfl, rfl, rfl⟩
    exact Splits.single front before after rest

section

variable (h : Replaces start before after pre mid)

include h

/-- The second range is what the first put there. -/
theorem trans (h' : Replaces start before' after' mid post)
    (hlength : before'.length = after.length) :
    before' = after ∧ Replaces start before after' pre post := by
  obtain ⟨front, rest, rfl, rfl, hfront⟩ := h
  obtain ⟨front', rest', hmid, rfl, hfront'⟩ := h'
  rw [append_assoc, append_assoc] at hmid
  obtain ⟨rfl, htail⟩ := append_inj hmid (by omega)
  obtain ⟨rfl, rfl⟩ := append_inj htail hlength.symm
  exact ⟨rfl, front, rest, rfl, rfl, hfront⟩

/-- The second range ends where the first begins. -/
theorem below (h' : Replaces start' before' after' mid post)
    (htouch : start' + before'.length = start) :
    Replaces start' (before' ++ before) (after' ++ after) pre post := by
  obtain ⟨front, rest, rfl, rfl, hfront⟩ := h
  obtain ⟨front', rest', hmid, rfl, hfront'⟩ := h'
  rw [append_assoc front after rest] at hmid
  obtain ⟨rfl, rfl⟩ := append_inj hmid (by
    rw [length_append, hfront, hfront', htouch])
  exact ⟨front', rest, by simp only [append_assoc], by simp only [append_assoc],
    hfront'⟩

/-- The second range begins where the first ends. -/
theorem above (h' : Replaces start' before' after' mid post)
    (htouch : start' = start + after.length) :
    Replaces start (before ++ before') (after ++ after') pre post := by
  obtain ⟨front, rest, rfl, rfl, hfront⟩ := h
  obtain ⟨front', rest', hmid, rfl, hfront'⟩ := h'
  rw [append_assoc front' before' rest'] at hmid
  obtain ⟨rfl, rfl⟩ := append_inj hmid (by
    rw [length_append, hfront, hfront', htouch])
  exact ⟨front, rest', by simp only [append_assoc], by simp only [append_assoc],
    hfront⟩

/-- The second range lies within what the first put there. -/
theorem inside (h' : Replaces start' before' after' mid post) (hlow : start ≤ start')
    (hhigh : start' + before'.length ≤ start + after.length) :
    Replaces (start' - start) before' after' after (splice after (start' - start) before'.length after')
      ∧ Replaces start before (splice after (start' - start) before'.length after') pre post := by
  obtain ⟨front, rest, rfl, rfl, rfl⟩ := h
  obtain ⟨front', rest', hmid, rfl, rfl⟩ := h'
  have hfront : front <+: front ++ after ++ rest := ⟨after ++ rest, by rw [append_assoc]⟩
  have hfront' : front' <+: front ++ after ++ rest :=
    ⟨before' ++ rest', by rw [hmid, append_assoc]⟩
  obtain ⟨x, rfl⟩ := prefix_of_prefix_length_le hfront hfront' hlow
  simp only [append_assoc, append_cancel_left_eq] at hmid
  have hwithin : x ++ before' <+: after ++ rest := ⟨rest', by rw [hmid, append_assoc]⟩
  obtain ⟨y, rfl⟩ := prefix_of_prefix_length_le hwithin ⟨rest, rfl⟩ (by
    simp only [length_append] at hhigh ⊢
    omega)
  simp only [append_assoc, append_cancel_left_eq] at hmid
  subst hmid
  have hsplice : splice (x ++ before' ++ y) ((front ++ x).length - front.length) before'.length after' =
      x ++ after' ++ y :=
    splice_middle x before' y after' (by rw [length_append, Nat.add_sub_cancel_left]) rfl
  rw [hsplice]
  constructor
  · exact ⟨x, y, rfl, rfl, by rw [length_append, Nat.add_sub_cancel_left]⟩
  · exact ⟨front, rest, rfl, by simp only [append_assoc], rfl⟩

end

end Replaces

/-! ### Several ranges -/

/-- A replaced range, by its place in the list as it is now. -/
structure Patch (α : Type*) where
  start : Nat
  before : List α
  after : List α

namespace Patch

/-- Where the new content ends. -/
def stop (patch : Patch α) : Nat := patch.start + patch.after.length

/-- The patch once `removed` elements below it have made place for `added`. -/
def move (added removed : Nat) (patch : Patch α) : Patch α :=
  { patch with start := patch.start + added - removed }

/-- Two touching patches as one. -/
def join (low high : Patch α) : Patch α :=
  ⟨low.start, low.before ++ high.before, low.after ++ high.after⟩

end Patch

/-- The patches, lowest first, are all in which `pre` and `post` differ; `post` is read from
position `q` on. -/
def Installs : Nat → List (Patch α) → List α → List α → Prop
  | _, [], pre, post => pre = post
  | q, patch :: patches, pre, post =>
    ∃ gap pre' post', pre = gap ++ patch.before ++ pre' ∧ post = gap ++ patch.after ++ post' ∧
      patch.start = q + gap.length ∧ Installs patch.stop patches pre' post'

/-- No two patches touch. -/
def Apart (patches : List (Patch α)) : Prop :=
  patches.Pairwise (fun low high => low.stop < high.start)

/-- The patches with their places in the list before, `shift` being what the patches below
have added to the list. -/
def toParts : Int → List (Patch α) → List (Replacement α)
  | _, [] => []
  | shift, patch :: patches =>
    ⟨(max 0 (patch.start - shift)).toNat, patch.start, patch.before, patch.after⟩ ::
      toParts (shift + (patch.after.length - patch.before.length)) patches

namespace Installs

variable {q q' c : Nat} {patch low high : Patch α} {patches lows highs : List (Patch α)}
  {pre mid post pre' post' : List α}

/-- Common elements in front. -/
theorem prepend (xs : List α) (h : Installs (q + xs.length) patches pre post) :
    Installs q patches (xs ++ pre) (xs ++ post) := by
  cases patches with
  | nil => exact congrArg (xs ++ ·) h
  | cons patch patches =>
      obtain ⟨gap, pre', post', rfl, rfl, hstart, hrest⟩ := h
      refine ⟨xs ++ gap, pre', post', ?_, ?_, ?_, hrest⟩
      · simp only [append_assoc]
      · simp only [append_assoc]
      · rw [hstart, length_append, Nat.add_assoc]

/-- Below the first patch both lists are the same. -/
theorem cut_gap (h : Installs q patches pre post) (hlow : q ≤ c) (hhigh : c ≤ q + post.length)
    (hstarts : ∀ patch ∈ patches, c ≤ patch.start) :
    ∃ gap pre' post', pre = gap ++ pre' ∧ post = gap ++ post' ∧ q + gap.length = c ∧
      Installs c patches pre' post' := by
  cases patches with
  | nil =>
      obtain rfl : pre = post := h
      refine ⟨pre.take (c - q), pre.drop (c - q), pre.drop (c - q), ?_, ?_, ?_, rfl⟩
      · rw [take_append_drop]
      · rw [take_append_drop]
      · rw [length_take]
        omega
  | cons patch patches =>
      obtain ⟨gap, pre', post', rfl, rfl, hstart, hrest⟩ := h
      have hfirst := hstarts patch (mem_cons_self ..)
      have hlength : (gap.take (c - q)).length = c - q := by
        rw [length_take]
        omega
      refine ⟨gap.take (c - q), gap.drop (c - q) ++ patch.before ++ pre',
        gap.drop (c - q) ++ patch.after ++ post', ?_, ?_, ?_, ?_⟩
      · rw [← append_assoc, ← append_assoc, take_append_drop]
      · rw [← append_assoc, ← append_assoc, take_append_drop]
      · omega
      · refine ⟨gap.drop (c - q), pre', post', rfl, rfl, ?_, hrest⟩
        rw [length_drop]
        omega

theorem le_start (h : Installs q patches pre post) : ∀ patch ∈ patches, q ≤ patch.start := by
  induction patches generalizing q pre post with
  | nil => exact fun _ hpatch => absurd hpatch not_mem_nil
  | cons patch patches ih =>
      obtain ⟨gap, pre', post', -, -, hstart, hrest⟩ := h
      intro other hother
      rcases mem_cons.mp hother with rfl | hother
      · omega
      · have := ih hrest other hother
        simp only [Patch.stop] at this
        omega

/-- The patches from one on start at its start or above. -/
theorem start_le_of_append (h : Installs q (lows ++ patch :: highs) pre post) :
    ∀ high ∈ patch :: highs, patch.start ≤ high.start := by
  induction lows generalizing q pre post with
  | nil =>
      obtain ⟨_, _, _, -, -, -, hrest⟩ := h
      intro high hhigh
      rcases mem_cons.mp hhigh with rfl | hhigh
      · exact Nat.le_refl _
      · exact Nat.le_trans (Nat.le_add_right ..) (hrest.le_start high hhigh)
  | cons low lows ih =>
      obtain ⟨_, _, _, -, -, -, hrest⟩ := h
      exact ih hrest

/-- A place that no patch spans cuts both lists. -/
theorem cut (h : Installs q (lows ++ highs) pre post) (hlow : q ≤ c) (hhigh : c ≤ q + post.length)
    (hlows : ∀ patch ∈ lows, patch.stop ≤ c) (hhighs : ∀ patch ∈ highs, c ≤ patch.start) :
    ∃ pre₁ pre₂ post₁ post₂, pre = pre₁ ++ pre₂ ∧ post = post₁ ++ post₂ ∧
      q + post₁.length = c ∧ Installs q lows pre₁ post₁ ∧ Installs c highs pre₂ post₂ := by
  induction lows generalizing q pre post with
  | nil =>
      obtain ⟨gap, pre', post', rfl, rfl, hgap, hrest⟩ := h.cut_gap hlow hhigh hhighs
      exact ⟨gap, pre', gap, post', rfl, rfl, hgap, rfl, hrest⟩
  | cons patch lows ih =>
      obtain ⟨gap, pre', post', rfl, rfl, hstart, hrest⟩ := h
      have hstop := hlows patch (mem_cons_self ..)
      simp only [length_append] at hstop hhigh
      obtain ⟨pre₁, pre₂, post₁, post₂, rfl, rfl, hlength, hlowRest, hhighRest⟩ :=
        ih hrest hstop (by simp only [Patch.stop]; omega)
          (fun patch hpatch => hlows patch (mem_cons_of_mem _ hpatch))
      refine ⟨gap ++ patch.before ++ pre₁, pre₂, gap ++ patch.after ++ post₁, post₂, ?_, ?_, ?_,
        ⟨gap, pre₁, post₁, rfl, rfl, hstart, hlowRest⟩, hhighRest⟩
      · simp only [append_assoc]
      · simp only [append_assoc]
      · simp only [Patch.stop] at hlength
        simp only [length_append]
        omega

/-- Patched lists one after the other. -/
theorem append (h : Installs q lows pre post) (h' : Installs (q + post.length) highs pre' post') :
    Installs q (lows ++ highs) (pre ++ pre') (post ++ post') := by
  induction lows generalizing q pre post with
  | nil =>
      obtain rfl : pre = post := h
      exact h'.prepend pre
  | cons patch lows ih =>
      obtain ⟨gap, pre₁, post₁, rfl, rfl, hstart, hrest⟩ := h
      refine ⟨gap, pre₁ ++ pre', post₁ ++ post', ?_, ?_, hstart, ih hrest ?_⟩
      · simp only [append_assoc]
      · simp only [append_assoc]
      · convert h' using 1
        simp only [Patch.stop, length_append]
        omega

/-- The list below grows or shrinks. -/
theorem move (h : Installs q patches pre post) {added removed : Nat}
    (hmove : q + added = q' + removed) :
    Installs q' (patches.map (Patch.move added removed)) pre post := by
  induction patches generalizing q q' pre post with
  | nil => exact h
  | cons patch patches ih =>
      obtain ⟨gap, pre', post', rfl, rfl, hstart, hrest⟩ := h
      refine ⟨gap, pre', post', rfl, rfl, ?_, ih hrest ?_⟩
      · simp only [Patch.move]
        omega
      · simp only [Patch.move, Patch.stop]
        omega

/-- **A further replacement that meets no patch.** -/
theorem insert {before after : List α} (h : Installs 0 (lows ++ highs) pre mid)
    (hnext : Replaces c before after mid post) (hlows : ∀ patch ∈ lows, patch.stop ≤ c)
    (hhighs : ∀ patch ∈ highs, c + before.length ≤ patch.start) :
    Installs 0 (lows ++ ⟨c, before, after⟩ :: highs.map (Patch.move after.length before.length))
      pre post := by
  have hroom := hnext.start_add_le
  obtain ⟨pre₁, pre₂, mid₁, mid₂, rfl, rfl, hlength, hbelow, habove⟩ :=
    h.cut (Nat.zero_le c) (by omega) hlows (fun patch hpatch => by
      have := hhighs patch hpatch
      omega)
  rw [length_append] at hroom
  obtain ⟨gap, pre₃, mid₃, rfl, rfl, hgap, hrest⟩ :=
    habove.cut_gap (Nat.le_add_right c before.length) (by omega) hhighs
  -- The lines below the next patch are the ones that are replaced.
  obtain ⟨front, rest, hmid, rfl, hfront⟩ := hnext
  rw [append_assoc] at hmid
  obtain ⟨rfl, htail⟩ := append_inj hmid (by omega)
  obtain ⟨rfl, rfl⟩ := append_inj htail (by omega)
  rw [append_assoc]
  refine hbelow.append ⟨[], pre₃, mid₃, rfl, rfl, ?_, hrest.move ?_⟩
  · rw [length_nil, hlength, Nat.add_zero]
  · simp only [Patch.stop]
    omega

/-- **A further replacement within a patch.** -/
theorem inside {before after : List α} (h : Installs 0 (lows ++ patch :: highs) pre mid)
    (hnext : Replaces c before after mid post) (hlows : ∀ low ∈ lows, low.stop ≤ patch.start)
    (hlow : patch.start ≤ c) (hhigh : c + before.length ≤ patch.stop) :
    (patch.after.drop (c - patch.start)).take before.length = before ∧
      Installs 0 (lows ++
        { patch with after := splice patch.after (c - patch.start) before.length after } ::
          highs.map (Patch.move after.length before.length)) pre post := by
  have hroom := hnext.start_add_le
  obtain ⟨pre₁, pre₂, mid₁, mid₂, rfl, rfl, hlength, hbelow, habove⟩ :=
    h.cut (Nat.zero_le patch.start) (by omega) hlows h.start_le_of_append
  obtain ⟨gap, pre₃, mid₃, rfl, rfl, hgap, hrest⟩ := habove
  obtain rfl : gap = [] := eq_nil_of_length_eq_zero (by omega)
  simp only [nil_append] at hnext ⊢
  have hpatch : Replaces patch.start patch.before patch.after (mid₁ ++ patch.before ++ mid₃)
      (mid₁ ++ (patch.after ++ mid₃)) :=
    ⟨mid₁, mid₃, rfl, (append_assoc ..).symm, by omega⟩
  obtain ⟨hwithin, front, rest, hfront, rfl, hlengthFront⟩ := hpatch.inside hnext hlow hhigh
  rw [append_assoc, append_assoc] at hfront
  obtain ⟨rfl, htail⟩ := append_inj hfront (by omega)
  obtain rfl : mid₃ = rest := append_cancel_left htail
  rw [append_assoc]
  refine ⟨hwithin.take_drop, hbelow.append ⟨[], pre₃, mid₃, rfl, rfl, ?_, hrest.move ?_⟩⟩
  · simp only [length_nil]
    omega
  have hspliced := hwithin.length_eq
  simp only [Patch.stop] at hhigh ⊢
  omega

/-- Touching patches are one patch. -/
theorem join (h : Installs q (low :: high :: patches) pre post) (htouch : high.start = low.stop) :
    Installs q (low.join high :: patches) pre post := by
  obtain ⟨gap, pre₁, post₁, rfl, rfl, hlow, gap', pre₂, post₂, rfl, rfl, hhigh, hrest⟩ := h
  obtain rfl : gap' = [] := eq_nil_of_length_eq_zero (by omega)
  refine ⟨gap, pre₂, post₂, ?_, ?_, hlow, ?_⟩
  · simp only [Patch.join, append_assoc, nil_append]
  · simp only [Patch.join, append_assoc, nil_append]
  · convert hrest using 1
    simp only [Patch.join, Patch.stop, length_append] at htouch ⊢
    omega

/-- Patches that hold what they stand for change nothing. -/
theorem eq_of_same (h : Installs q patches pre post)
    (hsame : ∀ patch ∈ patches, patch.before = patch.after) : pre = post := by
  induction patches generalizing q pre post with
  | nil => exact h
  | cons patch patches ih =>
      obtain ⟨gap, pre', post', rfl, rfl, -, hrest⟩ := h
      rw [ih hrest (fun other hother => hsame other (mem_cons_of_mem _ hother)),
        hsame patch (mem_cons_self ..)]

/-- Only the patches above matter for those above. -/
theorem above (h : Installs q (lows ++ highs) pre post) {highs' : List (Patch α)}
    (habove : ∀ q pre post, Installs q highs pre post → Installs q highs' pre post) :
    Installs q (lows ++ highs') pre post := by
  induction lows generalizing q pre post with
  | nil => exact habove q pre post h
  | cons patch lows ih =>
      obtain ⟨gap, pre', post', rfl, rfl, hstart, hrest⟩ := h
      exact ⟨gap, pre', post', rfl, rfl, hstart, ih hrest⟩

/-- Where the patches stood in the list before. -/
theorem splits (h : Installs q patches pre post) {p : Nat} {shift : Int}
    (hshift : (p : Int) = q - shift) : Splits p q (toParts shift patches) pre post := by
  induction patches generalizing q p shift pre post with
  | nil => exact h
  | cons patch patches ih =>
      obtain ⟨gap, pre', post', rfl, rfl, hstart, hrest⟩ := h
      have hbefore : (max 0 ((patch.start : Int) - shift)).toNat = p + gap.length := by omega
      refine ⟨gap, pre', post', rfl, rfl, hbefore, hstart, ?_⟩
      rw [hbefore]
      refine ih hrest ?_
      simp only [Patch.stop]
      omega

end Installs

end Microide.Lib
