/-
What a glob means.

A pattern read once from the left is a list of wildcards and bytes; its language is theirs. The matcher
goes through the same rounds as the search with two saved places, so it finds the leftmost matches.
Where double stars are whole segments those are all matches; where a double star may begin inside of a
segment they are not.

**Main results.** `globStep_search`: a round of the matcher is one of the search;
`globMatches_leftmost`: what it finds; `globMatches_anchored`: where that is every match.
-/

import Microide.Lib.WildcardSearch
import Microide.Project.GlobMatch

namespace Microide.Project

open List Option Glob DoubleStarRestart GlobState
open Lib

/-! ### The tokens of a pattern -/

theorem bracketClass_size_pos {text : GlobText} {bracket : BracketClass}
    (found : bracketClass text = some bracket) : 0 < bracket.size := by
  obtain ⟨items, -, rfl⟩ := map_eq_some_iff.mp found
  dsimp only
  split
  · omega
  · omega

/-- The tokens of a pattern. `bounded` tells whether the text left begins a segment of it. -/
def globTokens (mode : GlobDoubleStar) (bounded : Bool) (text : GlobText) : List (Wildcard UInt8) :=
  match text with
  | [] => []
  | c :: rest =>
    if c = asterisk then
      let behind := rest.dropWhile (· = asterisk)
      if rest.head? = some asterisk ∧
          (mode = .always ∨ bounded = true ∧ (behind = [] ∨ behind.head? = some slash)) then
        -- With the `/` behind them the stars stand for whole directories.
        if behind.head? = some slash then .folders :: globTokens mode true behind.tail
        else .deep :: globTokens mode false behind
      else .run :: globTokens mode false behind
    else if c = questionMark then .one (fun _ => true) :: globTokens mode false rest
    else if c = openBracket then
      match _found : bracketClass (c :: rest) with
      | some bracket =>
        .one bracket.accepts :: globTokens mode false ((c :: rest).drop bracket.size)
      | none => .literal c :: globTokens mode false rest
    else
      let lit := readByte (c :: rest)
      .literal lit.1 :: globTokens mode (lit.1 = slash) ((c :: rest).drop lit.2)
termination_by text.length
decreasing_by
  · have := (List.dropWhile_sublist (l := rest) (p := fun b => decide (b = asterisk))).length_le
    rw [List.length_tail, List.length_cons]
    omega
  · have := (List.dropWhile_sublist (l := rest) (p := fun b => decide (b = asterisk))).length_le
    rw [List.length_cons]
    omega
  · have := (List.dropWhile_sublist (l := rest) (p := fun b => decide (b = asterisk))).length_le
    rw [List.length_cons]
    omega
  · exact Nat.lt_succ_self _
  · have := bracketClass_size_pos _found
    rw [List.length_drop, List.length_cons]
    omega
  · exact Nat.lt_succ_self _
  · have := readByte_pos (c :: rest)
    rw [List.length_drop, List.length_cons]
    omega

/-- The language of a pattern. -/
def GlobLanguage (mode : GlobDoubleStar) (pattern text : GlobText) : Prop :=
  Matches slash (globTokens mode true pattern) text

/-- The matches with every double star begun at the leftmost place where what is before it can end. -/
def LeftmostGlob (mode : GlobDoubleStar) (pattern text : GlobText) : Prop :=
  Leftmost slash (globTokens mode true pattern) {text}

/-! ### A round of the matcher -/

section Rounds

variable {mode : GlobDoubleStar} {pattern text : GlobText}

/-- The tokens from a place of the pattern on. -/
def tokensAt (mode : GlobDoubleStar) (pattern : GlobText) (at_ : Nat) : List (Wildcard UInt8) :=
  globTokens mode (beforeOk pattern at_) (pattern.drop at_)

def starKind (crossSlash foldedSlash : Bool) : Wildcard UInt8 :=
  if crossSlash then if foldedSlash then .folders else .deep else .run

def StarRestart.saved (mode : GlobDoubleStar) (pattern text : GlobText) (star : StarRestart) :
    Saved UInt8 :=
  ⟨tokensAt mode pattern star.patternAt, text.drop star.textAt,
    starKind star.crossSlash star.foldedSlash⟩

def DoubleStarRestart.saved (mode : GlobDoubleStar) (pattern text : GlobText)
    (star : DoubleStarRestart) : Saved UInt8 :=
  ⟨tokensAt mode pattern star.patternAt, text.drop star.textAt, starKind true star.foldedSlash⟩

/-- The search a state of the matcher is in. -/
def GlobState.search (mode : GlobDoubleStar) (pattern text : GlobText) (s : GlobState) :
    Search UInt8 :=
  ⟨tokensAt mode pattern s.patternAt, text.drop s.textAt, s.star.map (StarRestart.saved mode pattern text),
    s.doubleStar.map (DoubleStarRestart.saved mode pattern text)⟩

/-- The places are in the pattern. -/
structure GlobState.Inside (pattern : GlobText) (s : GlobState) : Prop where
  patternAt : s.patternAt ≤ pattern.length
  star : ∀ star, s.star = some star → star.patternAt ≤ pattern.length
  doubleStar : ∀ star, s.doubleStar = some star → star.patternAt ≤ pattern.length

theorem dropWhile_findIdx? {α : Type} (p : α → Bool) (l : List α) : match l.findIdx? p with
    | none => (l.dropWhile fun a => !p a) = []
    | some i => ∃ a, (l.dropWhile fun a => !p a) = a :: l.drop (i + 1) := by
  induction l with
  | nil => rfl
  | cons a l ih =>
    rw [findIdx?_cons, dropWhile_cons]
    cases p a with
    | true => exact ⟨a, rfl⟩
    | false =>
      cases found : l.findIdx? p with
      | none =>
        rw [found] at ih
        exact ih
      | some i =>
        rw [found] at ih
        exact ih

/-- A double star takes in more as its kind does. -/
theorem extendSegmentDoubleStar_extend (text : GlobText) (consumedEnd : Nat) (foldedSlash : Bool) :
    (extendSegmentDoubleStar text consumedEnd foldedSlash).map text.drop =
      extend slash (starKind true foldedSlash) (text.drop consumedEnd) := by
  cases foldedSlash with
  | false =>
    rw [extendSegmentDoubleStar, if_pos rfl]
    rcases Nat.lt_or_ge consumedEnd text.length with inside | past
    · rw [if_neg (Nat.not_le.mpr inside), drop_eq_getElem_cons inside]
      rfl
    · rw [if_pos past, drop_eq_nil_of_le past]
      rfl
  | true =>
    rw [extendSegmentDoubleStar, if_neg (Bool.false_ne_true ∘ Eq.symm)]
    have spec := dropWhile_findIdx? (fun c => decide (c = slash)) (text.drop consumedEnd)
    have same : (fun c : UInt8 => !decide (c = slash)) = fun c => decide (c ≠ slash) := by
      funext c
      exact decide_not.symm
    rw [same] at spec
    rw [show starKind true true = .folders from rfl, extend]
    split at spec
    next none_ =>
      rw [none_, spec]
      rfl
    next i found =>
      obtain ⟨a, dropped⟩ := spec
      rw [found, dropped]
      dsimp only [map_some]
      rw [drop_drop, Nat.add_assoc]

theorem StarRestart.extended_saved (star : StarRestart) :
    (star.extended text).map (StarRestart.saved mode pattern text) =
      (star.saved mode pattern text).extended slash := by
  obtain ⟨patternAt, textAt, crossSlash, foldedSlash⟩ := star
  rw [StarRestart.extended, Saved.extended, StarRestart.saved]
  cases crossSlash with
  | true =>
    rw [if_pos rfl, ← extendSegmentDoubleStar_extend, Option.map_map, Option.map_map]
    rfl
  | false =>
    rw [if_neg Bool.false_ne_true, show starKind false foldedSlash = .run from rfl]
    rcases Nat.lt_or_ge textAt text.length with inside | past
    · rw [drop_eq_getElem_cons inside, getElem?_eq_getElem inside, extend]
      by_cases stops : text[textAt] = slash
      · rw [if_pos (.inr (congrArg some stops)), if_pos stops]
        rfl
      · rw [if_neg (not_or.mpr ⟨Nat.not_le.mpr inside, fun same => stops (Option.some.inj same)⟩),
          if_neg stops]
        rfl
    · rw [if_pos (.inl past), drop_eq_nil_of_le past]
      rfl

theorem DoubleStarRestart.extended_saved (star : DoubleStarRestart) :
    (star.extended text).map (saved mode pattern text) =
      (star.saved mode pattern text).extended slash := by
  rw [extended, Saved.extended, saved,
    ← extendSegmentDoubleStar_extend, Option.map_map, Option.map_map]
  rfl

theorem StarRestart.extended_patternAt {star next : StarRestart}
    (more : star.extended text = some next) : next.patternAt = star.patternAt := by
  rw [StarRestart.extended] at more
  split at more
  · obtain ⟨at_, -, rfl⟩ := map_eq_some_iff.mp more
    rfl
  · split at more
    · exact absurd more (some_ne_none next).symm
    · rw [← Option.some.inj more]

theorem DoubleStarRestart.extended_patternAt {star next : DoubleStarRestart}
    (more : star.extended text = some next) : next.patternAt = star.patternAt := by
  obtain ⟨at_, -, rfl⟩ := map_eq_some_iff.mp more
  rfl

/-- What a round of the search does, where the matcher's does this. -/
def SameRound (mode : GlobDoubleStar) (pattern text : GlobText) (round : Search UInt8 ⊕ Bool) :
    GlobState ⊕ Bool → Prop
  | .inl next => round = .inl (next.search mode pattern text) ∧ next.Inside pattern
  | .inr answer => round = .inr answer

theorem backtrack_search {s : GlobState} (inside : s.Inside pattern) :
    SameRound mode pattern text ((s.search mode pattern text).retry slash) (backtrack text s) := by
  have star : (s.search mode pattern text).star.bind (Saved.extended slash) =
      (s.star.bind (StarRestart.extended text)).map (StarRestart.saved mode pattern text) := by
    rw [search]
    cases s.star with
    | none => rfl
    | some star => exact star.extended_saved.symm
  have doubleStar : (s.search mode pattern text).deepStar.bind (Saved.extended slash) =
      (s.doubleStar.bind (extended text)).map
        (saved mode pattern text) := by
    rw [search]
    cases s.doubleStar with
    | none => rfl
    | some star => exact star.extended_saved.symm
  rw [Search.retry, backtrack, star, doubleStar]
  cases more : s.star.bind (StarRestart.extended text) with
  | some next =>
    obtain ⟨was, found, extended⟩ := bind_eq_some_iff.mp more
    have within : next.patternAt ≤ pattern.length :=
      (StarRestart.extended_patternAt extended).trans_le (inside.star was found)
    refine ⟨rfl, within, fun star is => ?_, inside.doubleStar⟩
    exact Option.some.inj is ▸ within
  | none =>
    cases more : s.doubleStar.bind (extended text) with
    | none => rfl
    | some next =>
      obtain ⟨was, found, extended⟩ := bind_eq_some_iff.mp more
      have within : next.patternAt ≤ pattern.length :=
        (extended_patternAt extended).trans_le (inside.doubleStar was found)
      refine ⟨rfl, within, fun star none_ => ?_, fun star is => ?_⟩
      · exact absurd none_ (some_ne_none star).symm
      · exact Option.some.inj is ▸ within

theorem beforeOk_behind (at_ k : Nat) :
    beforeOk pattern (at_ + k + 1) = decide ((pattern.drop at_)[k]? = some slash) := by
  rw [beforeOk, getElem?_drop, Nat.add_sub_cancel]
  simp

/-- The place behind a run of stars. -/
structure StarRun (pattern : GlobText) (at_ : Nat) (rest : GlobText) : Prop where
  behind : pattern.drop (at_ + starCount (pattern.drop at_)) = rest.dropWhile (· = asterisk)
  several : 2 ≤ starCount (pattern.drop at_) ↔ rest.head? = some asterisk
  next : pattern[at_ + starCount (pattern.drop at_)]? = (rest.dropWhile (· = asterisk)).head?
  last : at_ + starCount (pattern.drop at_) = pattern.length ↔ rest.dropWhile (· = asterisk) = []
  unbounded : beforeOk pattern (at_ + starCount (pattern.drop at_)) = false
  within : at_ + starCount (pattern.drop at_) ≤ pattern.length

theorem starRun {at_ : Nat} {rest : GlobText} (inside : at_ ≤ pattern.length)
    (here : pattern.drop at_ = asterisk :: rest) : StarRun pattern at_ rest := by
  have count : starCount (pattern.drop at_) = (rest.takeWhile (· = asterisk)).length + 1 := by
    rw [here, starCount, takeWhile_cons, if_pos (decide_eq_true rfl), length_cons]
  have split : rest = rest.takeWhile (· = asterisk) ++ rest.dropWhile (· = asterisk) :=
    takeWhile_append_dropWhile.symm
  have behind : pattern.drop (at_ + starCount (pattern.drop at_)) =
      rest.dropWhile (· = asterisk) := by
    rw [← drop_drop, count, here, drop_succ_cons]
    exact (congrArg (List.drop _) split).trans drop_left
  have lengths := congrArg List.length here
  rw [length_drop, length_cons] at lengths
  have tail := congrArg List.length split
  rw [length_append] at tail
  refine ⟨behind, ?_, ?_, ?_, ?_, by omega⟩
  · rw [count]
    cases rest with
    | nil => simp
    | cons c rest =>
      by_cases isStar : c = asterisk
      · simp [isStar]
      · simp [isStar]
  · rw [← behind, head?_drop]
  · rw [← behind, drop_eq_nil_iff]
    omega
  · rw [count, ← Nat.add_assoc, beforeOk_behind, here, decide_eq_false_iff_not]
    cases taken : (rest.takeWhile (· = asterisk)).length with
    | zero => exact fun same => absurd (Option.some.inj same) (by decide)
    | succ k =>
      rw [getElem?_cons_succ]
      intro same
      have bound : k < (rest.takeWhile (· = asterisk)).length := by omega
      have isStar : (rest.takeWhile (· = asterisk))[k]? = some slash := by
        rw [← @getElem?_append_left _ _ (rest.dropWhile (· = asterisk)) _ bound, ← split, same]
      have star := mem_takeWhile_imp (mem_of_getElem? isStar)
      exact absurd (of_decide_eq_true star) (by decide)

theorem tokensAt_end : tokensAt mode pattern pattern.length = [] := by
  rw [tokensAt, drop_length, globTokens.eq_def]

/-- The tokens of a run of stars. -/
theorem tokensAt_star {at_ : Nat} {rest : GlobText} (inside : at_ ≤ pattern.length)
    (here : pattern.drop at_ = asterisk :: rest) : let behind := at_ + starCount (pattern.drop at_)
    tokensAt mode pattern at_ =
      if 2 ≤ starCount (pattern.drop at_) ∧ (mode = .always ∨ beforeOk pattern at_ = true ∧
          (behind = pattern.length ∨ pattern[behind]? = some slash)) then
        if pattern[behind]? = some slash then .folders :: tokensAt mode pattern (behind + 1)
        else .deep :: tokensAt mode pattern behind
      else .run :: tokensAt mode pattern behind := by
  have run := starRun inside here
  have resume : globTokens mode false (rest.dropWhile (· = asterisk)) =
      tokensAt mode pattern (at_ + starCount (pattern.drop at_)) := by
    rw [tokensAt, run.unbounded, run.behind]
  simp only [run.several, run.last, run.next, ← resume]
  rw [tokensAt, here, globTokens.eq_def]
  dsimp only
  rw [if_pos rfl]
  refine if_congr Iff.rfl (ite_congr rfl (fun folded => ?_) fun _ => rfl) rfl
  rw [tokensAt]
  have atSlash := run.next.trans folded
  have bounded : beforeOk pattern (at_ + starCount (pattern.drop at_) + 1) = true := by
    rw [beforeOk, Nat.add_sub_cancel, atSlash]
    exact decide_eq_true (.inr rfl)
  rw [here] at bounded
  rw [bounded, ← tail_drop, ← here, run.behind]

theorem asterisk_head {at_ : Nat} (isStar : pattern[at_]? = some asterisk) :
    at_ ≤ pattern.length ∧ pattern.drop at_ = asterisk :: pattern.drop (at_ + 1) := by
  obtain ⟨inside, same⟩ := List.getElem?_eq_some_iff.mp isStar
  exact ⟨inside.le, by rw [drop_eq_getElem_cons inside, same]⟩

/-- The text exhausted: only wildcards may be left. -/
theorem matchesNothing_tokens {at_ : Nat} (inside : at_ ≤ pattern.length) :
    matchesNothing mode pattern at_ = (tokensAt mode pattern at_).all fun w => !w.single := by
  fun_induction matchesNothing mode pattern at_ with
  | case1 at_ isStar count behind folds ih =>
    obtain ⟨within, here⟩ := asterisk_head isStar
    have tokens := @tokensAt_star mode pattern at_ _ within here
    obtain ⟨several, isSlash, convention⟩ := folds
    have bound := (List.getElem?_eq_some_iff.mp isSlash).1
    rw [tokens, if_pos ⟨several, convention.imp_right fun before => ⟨before, .inr isSlash⟩⟩,
      if_pos isSlash, ih bound]
    rfl
  | case2 at_ isStar count behind folds ih =>
    obtain ⟨within, here⟩ := asterisk_head isStar
    have tokens := @tokensAt_star mode pattern at_ _ within here
    have run := starRun within here
    rw [ih run.within, tokens]
    split
    next crosses =>
      split
      next isSlash =>
        exact absurd ⟨crosses.1, isSlash, crosses.2.imp_right And.left⟩ folds
      · rfl
    · rfl
  | case3 at_ other =>
    rcases Nat.lt_or_eq_of_le inside with before | rfl
    · rw [decide_eq_false before.ne, tokensAt, drop_eq_getElem_cons before, globTokens.eq_def]
      dsimp only
      have notStar : ¬pattern[at_] = asterisk := fun same =>
        other ((getElem?_eq_getElem before).trans (congrArg some same))
      rw [if_neg notStar]
      split
      · rfl
      · split
        · split
          · rfl
          · rfl
        · rfl
    · rw [tokensAt_end]
      exact decide_eq_true rfl

/-- What is read at the head of a text ends in the byte it is. -/
theorem readByte_last {text : GlobText} (some_ : text ≠ []) :
    ∃ k, (readByte text).2 = k + 1 ∧ text[k]? = some (readByte text).1 := by
  rw [readByte.eq_def]
  split
  · exact absurd rfl some_
  · exact ⟨0, rfl, rfl⟩
  · split
    · exact ⟨1, rfl, rfl⟩
    · exact ⟨0, rfl, rfl⟩

/-- A class ends in its `]`. -/
theorem classItems_last {first : Bool} {text : GlobText} {items : List (UInt8 × UInt8) × Nat}
    (found : classItems first text = some items) :
    ∃ k, items.2 = k + 1 ∧ text[k]? = some closeBracket := by
  fun_induction classItems first text generalizing items with
  | case1 => exact absurd found (some_ne_none items).symm
  | case2 first c rest closes =>
    obtain rfl := Option.some.inj found
    exact ⟨0, rfl, congrArg some closes.1⟩
  | case3 first c rest closes low after ranges high =>
    rename_i ih
    obtain ⟨more, inner, rfl⟩ := map_eq_some_iff.mp found
    obtain ⟨k, size, last⟩ := ih inner
    rw [getElem?_drop, getElem?_drop] at last
    refine ⟨low.2 + (1 + high.2 + k), ?_, last⟩
    omega
  | case4 first c rest closes low after ranges =>
    rename_i ih
    obtain ⟨more, inner, rfl⟩ := map_eq_some_iff.mp found
    obtain ⟨k, size, last⟩ := ih inner
    rw [getElem?_drop] at last
    refine ⟨low.2 + k, ?_, last⟩
    omega

theorem bracketClass_last {text : GlobText} {bracket : BracketClass}
    (found : bracketClass text = some bracket) :
    ∃ k, bracket.size = k + 1 ∧ text[k]? = some closeBracket := by
  obtain ⟨items, inner, rfl⟩ := map_eq_some_iff.mp found
  obtain ⟨k, size, last⟩ := classItems_last inner
  rw [getElem?_drop] at last
  refine ⟨_, ?_, last⟩
  dsimp only
  omega

/-- A token of one element, read off the pattern's bytes through one that ends it. -/
structure SingleAt (mode : GlobDoubleStar) (pattern : GlobText) (at_ size : Nat)
    (w : Wildcard UInt8) : Prop where
  single : w.single = true
  within : at_ + size ≤ pattern.length
  tokens : tokensAt mode pattern at_ = w :: tokensAt mode pattern (at_ + size)

theorem singleAt {at_ k : Nat} {last : UInt8} {w : Wildcard UInt8}
    (ends : (pattern.drop at_)[k]? = some last) (single : w.single = true)
    (tokens : tokensAt mode pattern at_ =
      w :: globTokens mode (decide (last = slash)) ((pattern.drop at_).drop (k + 1))) :
    SingleAt mode pattern at_ (k + 1) w := by
  refine ⟨single, ?_, ?_⟩
  · rw [getElem?_drop] at ends
    have := (List.getElem?_eq_some_iff.mp ends).1
    omega
  · have bounded : decide (some last = some slash) = decide (last = slash) :=
      decide_eq_decide.mpr ⟨Option.some.inj, congrArg some⟩
    rw [tokens, tokensAt, ← Nat.add_assoc, beforeOk_behind, ends, bounded, drop_drop, Nat.add_assoc]

/-- The token of a byte of the pattern that is no star. -/
theorem tokensAt_single {at_ : Nat} {pc : UInt8} (here : pattern[at_]? = some pc)
    (other : pc ≠ asterisk) :
    if pc = questionMark then SingleAt mode pattern at_ 1 (.one fun _ => true)
    else if pc = openBracket then
      match bracketClass (pattern.drop at_) with
      | some bracket => SingleAt mode pattern at_ bracket.size (.one bracket.accepts)
      | none => SingleAt mode pattern at_ 1 (.literal pc)
    else
      let lit := readByte (pattern.drop at_)
      SingleAt mode pattern at_ lit.2 (.literal lit.1) := by
  obtain ⟨inside, same⟩ := List.getElem?_eq_some_iff.mp here
  have rest : pattern.drop at_ = pc :: pattern.drop (at_ + 1) := by
    rw [drop_eq_getElem_cons inside, same]
  have head : (pattern.drop at_)[0]? = some pc := by
    rw [rest]
    rfl
  have tokens := globTokens.eq_def mode (beforeOk pattern at_) (pattern.drop at_)
  rw [rest] at tokens
  dsimp only at tokens
  rw [if_neg other, ← rest] at tokens
  split
  next question =>
    refine singleAt head rfl (tokens.trans ?_)
    rw [rest, question]
    rfl
  next notQuestion =>
    rw [if_neg notQuestion] at tokens
    split
    next opens =>
      rw [if_pos opens] at tokens
      cases found : bracketClass (pattern.drop at_) with
      | none =>
        refine singleAt head rfl ?_
        rw [tokensAt, tokens]
        split
        next bracket found' =>
          exact absurd (found.symm.trans found') (some_ne_none bracket).symm
        · rw [rest, opens]
          rfl
      | some bracket =>
        obtain ⟨k, size, last⟩ := bracketClass_last found
        dsimp only
        rw [size]
        refine singleAt last rfl ?_
        rw [tokensAt, tokens]
        split
        next bracket' found' =>
          obtain rfl := Option.some.inj (found.symm.trans found')
          rw [size]
          rfl
        next found' =>
          exact absurd (found.symm.trans found') (some_ne_none bracket)
    next notOpen =>
      rw [if_neg notOpen] at tokens
      obtain ⟨k, size, last⟩ :=
        readByte_last (show pattern.drop at_ ≠ [] from rest ▸ cons_ne_nil _ _)
      dsimp only
      rw [size]
      refine singleAt last rfl ?_
      rw [tokensAt, tokens, ← size]

/-- A round at a token of one element. -/
theorem single_search {s : GlobState} (inside : s.Inside pattern) {tc : UInt8}
    (here : text[s.textAt]? = some tc) {size : Nat} {w : Wildcard UInt8}
    (single : SingleAt mode pattern s.patternAt size w) :
    SameRound mode pattern text ((s.search mode pattern text).step slash)
      (if w.takes slash tc then
        .inl { s with patternAt := s.patternAt + size, textAt := s.textAt + 1 }
      else backtrack text s) := by
  obtain ⟨bound, same⟩ := List.getElem?_eq_some_iff.mp here
  have step : (s.search mode pattern text).step slash =
      if w.takes slash tc then
        .inl (search mode pattern text
          { s with patternAt := s.patternAt + size, textAt := s.textAt + 1 })
      else (s.search mode pattern text).retry slash := by
    rw [Search.step, search]
    rw [drop_eq_getElem_cons bound, same, single.tokens]
    dsimp only
    rw [if_pos single.single]
    rfl
  rw [step]
  split
  · exact ⟨rfl, single.within, inside.star, inside.doubleStar⟩
  · exact backtrack_search inside

theorem tokensAt_nonempty {at_ : Nat} (inside : at_ < pattern.length) :
    (tokensAt mode pattern at_).isEmpty = false := by
  rw [tokensAt, drop_eq_getElem_cons inside, globTokens.eq_def]
  dsimp only
  split
  · split
    · split
      · rfl
      · rfl
    · rfl
  · split
    · rfl
    · split
      · split
        · rfl
        · rfl
      · rfl

/-- A wildcard begun. -/
theorem begun_search {s : GlobState} (inside : s.Inside pattern) {tc : UInt8}
    (here : text[s.textAt]? = some tc) {resume : Nat} {crossSlash foldedSlash : Bool}
    (within : resume ≤ pattern.length)
    (tokens : tokensAt mode pattern s.patternAt =
      starKind crossSlash foldedSlash :: tokensAt mode pattern resume)
    (left : (starKind crossSlash foldedSlash).isDeep = true →
      (tokensAt mode pattern resume).isEmpty = false) :
    SameRound mode pattern text ((s.search mode pattern text).step slash)
      (.inl { s with
        patternAt := resume
        star := some ⟨resume, s.textAt, crossSlash, foldedSlash⟩
        doubleStar :=
          if crossSlash then some ⟨resume, s.textAt, foldedSlash⟩ else s.doubleStar }) := by
  obtain ⟨bound, same⟩ := List.getElem?_eq_some_iff.mp here
  have several : (starKind crossSlash foldedSlash).single = false := by
    cases crossSlash with
    | false => rfl
    | true => cases foldedSlash <;> rfl
  have last : ((starKind crossSlash foldedSlash).isDeep &&
      (tokensAt mode pattern resume).isEmpty) = false := by
    cases deep : (starKind crossSlash foldedSlash).isDeep with
    | false => rfl
    | true => exact left deep
  refine ⟨?_, within, fun star is => ?_, fun star is => ?_⟩
  · rw [Search.step, search]
    rw [drop_eq_getElem_cons bound, tokens]
    dsimp only
    rw [several, if_neg Bool.false_ne_true, last, if_neg Bool.false_ne_true, Search.begin,
      ← drop_eq_getElem_cons bound, search]
    cases crossSlash with
    | false => rfl
    | true => cases foldedSlash <;> rfl
  · obtain rfl := Option.some.inj is
    exact within
  · cases crossSlash with
    | false => exact inside.doubleStar star is
    | true =>
      obtain rfl := Option.some.inj is
      exact within

/-- A round at a run of stars. -/
theorem beginStar_search {s : GlobState} (inside : s.Inside pattern) {tc : UInt8}
    (here : text[s.textAt]? = some tc) (isStar : pattern[s.patternAt]? = some asterisk) :
    SameRound mode pattern text ((s.search mode pattern text).step slash)
      (beginStar mode pattern s) := by
  obtain ⟨bound, same⟩ := List.getElem?_eq_some_iff.mp here
  obtain ⟨atMost, rest⟩ := asterisk_head isStar
  have within := (starRun atMost rest).within
  have tokens := @tokensAt_star mode pattern s.patternAt _ atMost rest
  rw [beginStar]
  dsimp only at tokens ⊢
  generalize s.patternAt + starCount (pattern.drop s.patternAt) = behind at within tokens ⊢
  by_cases crosses : 2 ≤ starCount (pattern.drop s.patternAt) ∧
      (mode = .always ∨ beforeOk pattern s.patternAt = true ∧
        (behind = pattern.length ∨ pattern[behind]? = some slash))
  · rw [if_pos crosses] at tokens
    simp only [decide_eq_true_eq, crosses, true_and]
    by_cases folds : pattern[behind]? = some slash
    · have apart : behind < pattern.length := (List.getElem?_eq_some_iff.mp folds).1
      rw [if_pos folds] at tokens
      simp only [apart.ne, folds]
      exact begun_search inside here (Nat.succ_le_of_lt apart) tokens
        fun deep => absurd deep Bool.false_ne_true
    · rw [if_neg folds] at tokens
      simp only [folds, if_false]
      split
      next last =>
        rw [SameRound, Search.step, search]
        rw [drop_eq_getElem_cons bound, tokens, last, tokensAt_end]
        rfl
      next apart =>
        exact begun_search inside here within tokens
          fun _ => tokensAt_nonempty (Nat.lt_of_le_of_ne within apart)
  · rw [if_neg crosses] at tokens
    simp only [decide_eq_true_eq, crosses]
    exact begun_search inside here within tokens fun deep => absurd deep Bool.false_ne_true

theorem globStep_search {s : GlobState} (inside : s.Inside pattern) :
    SameRound mode pattern text ((s.search mode pattern text).step slash)
      (globStep mode pattern text s) := by
  rw [globStep]
  cases here : text[s.textAt]? with
  | none =>
    rw [SameRound, Search.step, search]
    rw [drop_eq_nil_of_le (List.getElem?_eq_none_iff.mp here),
      matchesNothing_tokens inside.patternAt]
  | some tc =>
    obtain ⟨bound, same⟩ := List.getElem?_eq_some_iff.mp here
    cases head : pattern[s.patternAt]? with
    | none =>
      have last : s.patternAt = pattern.length :=
        Nat.le_antisymm inside.patternAt (List.getElem?_eq_none_iff.mp head)
      have step : (s.search mode pattern text).step slash =
          (s.search mode pattern text).retry slash := by
        rw [Search.step, search]
        rw [drop_eq_getElem_cons bound, last, tokensAt_end]
      rw [step]
      exact backtrack_search inside
    | some pc =>
      dsimp only
      split
      next isStar =>
        exact beginStar_search inside here (head.trans (congrArg some isStar))
      next other =>
        have token := @tokensAt_single mode pattern _ _ head other
        split
        next question =>
          rw [if_pos question] at token
          have round := single_search inside here token
          split
          next stops =>
            rwa [if_neg (by simp [Wildcard.takes, stops])] at round
          next goes =>
            rwa [if_pos (by simp [Wildcard.takes, goes])] at round
        next notQuestion =>
          rw [if_neg notQuestion] at token
          split
          next opens =>
            rw [if_pos opens] at token
            cases found : bracketClass (pattern.drop s.patternAt) with
            | none =>
              rw [found] at token
              have round := single_search inside here token
              split
              next stops =>
                rwa [if_neg (by simp [stops, opens]; decide)] at round
              · rw [opens] at round
                simpa [Wildcard.takes] using round
            | some bracket =>
              rw [found] at token
              have round := single_search inside here token
              split
              next stops =>
                rwa [if_neg (by simp [Wildcard.takes, stops])] at round
              next goes =>
                simpa [Wildcard.takes, goes] using round
          next notOpen =>
            rw [if_neg notOpen] at token
            have round := single_search inside here token
            simpa only [Wildcard.takes, decide_eq_true_eq] using round

/-- The rounds of the matcher are the search's. -/
theorem globRun_search (rounds : Nat) {s : GlobState} (inside : s.Inside pattern) :
    globRun mode pattern text rounds s =
      (s.search mode pattern text).runFor slash rounds := by
  induction rounds generalizing s with
  | zero => rfl
  | succ rounds ih =>
    have round := @globStep_search mode pattern text s inside
    rw [globRun, Search.runFor]
    cases stepped : globStep mode pattern text s with
    | inl next =>
      rw [stepped] at round
      rw [round.1]
      exact ih round.2
    | inr answer =>
      rw [stepped] at round
      rw [show (s.search mode pattern text).step slash = .inr answer from round]

end Rounds

/-! ### What the matcher finds -/

theorem globTokens_length (mode : GlobDoubleStar) (bounded : Bool) (text : GlobText) :
    (globTokens mode bounded text).length ≤ text.length := by
  fun_induction globTokens mode bounded text with
  | case1 => rfl
  | case2 bounded rest behind crosses folds ih =>
    have : behind.length ≤ rest.length := (dropWhile_sublist _).length_le
    rw [length_tail] at ih
    rw [length_cons, length_cons]
    omega
  | case3 bounded rest behind crosses folds ih =>
    have : behind.length ≤ rest.length := (dropWhile_sublist _).length_le
    rw [length_cons, length_cons]
    omega
  | case4 bounded rest behind crosses ih =>
    have : behind.length ≤ rest.length := (dropWhile_sublist _).length_le
    rw [length_cons, length_cons]
    omega
  | case5 bounded rest _ ih => exact Nat.succ_le_succ ih
  | case6 bounded rest _ _ bracket found ih =>
    have := bracketClass_size_pos found
    rw [length_drop, length_cons] at ih
    rw [length_cons, length_cons]
    omega
  | case7 bounded rest _ _ found ih => exact Nat.succ_le_succ ih
  | case8 bounded c rest star question opens lit ih =>
    have : 0 < lit.2 := readByte_pos (c :: rest)
    rw [length_drop, length_cons] at ih
    rw [length_cons, length_cons]
    omega

/-- The matcher ends, and finds the leftmost matches. -/
theorem globMatches_leftmost (mode : GlobDoubleStar) (pattern text : GlobText) :
    (∃ found, globRun mode pattern text (globRounds pattern text) {} = some found) ∧
      (globMatches mode pattern text = true ↔ LeftmostGlob mode pattern text) := by
  have inside : GlobState.Inside pattern {} :=
    ⟨Nat.zero_le _, fun star none_ => absurd none_ (some_ne_none star).symm,
      fun star none_ => absurd none_ (some_ne_none star).symm⟩
  have fit := globTokens_length mode true pattern
  obtain ⟨found, ran, spec⟩ :=
    @search_spec UInt8 _ slash (globTokens mode true pattern) text _ fit
  have run : globRun mode pattern text (globRounds pattern text) {} = some found :=
    (globRun_search _ inside).trans ran
  refine ⟨⟨found, run⟩, ?_⟩
  rw [globMatches, run]
  exact spec

theorem globTokens_anchored (bounded : Bool) (text : GlobText) :
    Anchored slash bounded (globTokens .segmentAnchored bounded text) := by
  fun_induction globTokens .segmentAnchored bounded text with
  | case1 => trivial
  | case2 bounded rest behind crosses folds ih =>
    rcases crosses.2 with always | ⟨bound, -⟩
    · exact GlobDoubleStar.noConfusion always
    · exact ⟨bound, ih⟩
  | case3 bounded rest behind crosses folds ih => exact ih
  | case4 bounded rest behind crosses ih => exact ih
  | case5 bounded rest _ ih => exact ih
  | case6 bounded rest _ _ bracket found ih => exact ih
  | case7 bounded rest _ _ found ih => exact ih
  | case8 bounded c rest star question opens lit ih => exact ih

/-- With each `**/` at the start of a segment the matcher finds every match, in both conventions. -/
theorem globMatches_anchored {mode : GlobDoubleStar} {pattern : GlobText}
    (anchored : Anchored slash true (globTokens mode true pattern)) (text : GlobText) :
    globMatches mode pattern text = true ↔ GlobLanguage mode pattern text := by
  have inside : StartsIn slash text true {text} := by
    rintro r rfl
    exact ⟨[], rfl, fun _ => .inl rfl⟩
  rw [(globMatches_leftmost mode pattern text).2, LeftmostGlob, leftmost_iff_matches anchored inside]
  constructor
  · rintro ⟨t, rfl, matches_⟩
    exact matches_
  · exact fun matches_ => ⟨text, rfl, matches_⟩

/-- **In the gitignore convention** the matcher ends and decides the language. -/
theorem globMatches_gitignore (pattern text : GlobText) :
    (∃ found, globRun .segmentAnchored pattern text (globRounds pattern text) {} = some found) ∧
      (globMatches .segmentAnchored pattern text = true ↔
        GlobLanguage .segmentAnchored pattern text) :=
  ⟨(globMatches_leftmost .segmentAnchored pattern text).1,
    globMatches_anchored (globTokens_anchored true pattern) text⟩

/-- **In the EditorConfig convention** the matcher ends, and decides the language of the texts that are
matched, where they are at all, with every double star begun at the leftmost place where what is
before it can end. -/
theorem globMatches_editorConfig (pattern text : GlobText) :
    (∃ found, globRun .always pattern text (globRounds pattern text) {} = some found) ∧
      ((globMatches .always pattern text = true ↔ GlobLanguage .always pattern text) ↔
        (GlobLanguage .always pattern text → LeftmostGlob .always pattern text)) := by
  obtain ⟨ends, leftmost⟩ := globMatches_leftmost .always pattern text
  have sound : LeftmostGlob .always pattern text → GlobLanguage .always pattern text := by
    intro found
    obtain ⟨t, rfl, matches_⟩ := found.matches_
    exact matches_
  refine ⟨ends, fun decides language => leftmost.mp (decides.mpr language), fun complete => ?_⟩
  exact leftmost.trans ⟨sound, complete⟩

/-- `*a**/b` and `aab`: the double star is begun behind the first `a`, and never again behind the
second. -/
theorem globMatches_later_doubleStar :
    ¬(globMatches .always [0x2A, 0x61, 0x2A, 0x2A, 0x2F, 0x62] [0x61, 0x61, 0x62] = true ↔
      GlobLanguage .always [0x2A, 0x61, 0x2A, 0x2A, 0x2F, 0x62] [0x61, 0x61, 0x62]) := by
  have tokens : globTokens .always true [0x2A, 0x61, 0x2A, 0x2A, 0x2F, 0x62] =
      [.run, .literal 0x61, .folders, .literal 0x62] := by
    simp [globTokens, asterisk, questionMark, openBracket, slash, readByte, backslash]
  have language : GlobLanguage .always [0x2A, 0x61, 0x2A, 0x2A, 0x2F, 0x62] [0x61, 0x61, 0x62] := by
    rw [GlobLanguage, tokens]
    exact ⟨[0x61], [0x61, 0x62], rfl, show slash ∉ [0x61] by decide, [0x61], [0x62], rfl, ⟨0x61, rfl, rfl⟩, [], [0x62],
      rfl, .inl rfl, [0x62], [], rfl, ⟨0x62, rfl, rfl⟩, rfl⟩
  have answer :
      globMatches .always [0x2A, 0x61, 0x2A, 0x2A, 0x2F, 0x62] [0x61, 0x61, 0x62] = false := by
    decide
  rw [answer]
  exact fun same => Bool.false_ne_true (same.mpr language)

end Microide.Project
