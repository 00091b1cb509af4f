/-
Brace alternation in globs.

`{a,b}` stands for one of its alternatives. Expansion cuts a pattern at its first group, puts each
alternative in the group's place and goes on with what comes of it. A pattern with balanced braces is
the text of a tree of bytes and groups, and its expansions are the tree's choices.

**Main results.** `cutGroup_render`: the cut finds a group's own alternatives at every depth;
`exists_braces`: balanced patterns are texts of trees; `expandGlobBraces_render`: the expansion.
-/

import Microide.Project.GlobMatch

namespace Microide.Project

namespace Glob

def openBrace : UInt8 := 0x7B
def closeBrace : UInt8 := 0x7D
def comma : UInt8 := 0x2C

end Glob

open List Glob

/-! ### The expansion -/

def kMaxExpandedGlobPatterns : Nat := 256

def kMaxBraceExpansionPatternBytes : Nat := 4096

/-- The text before the first `{` that is not escaped, and the text behind it. -/
def cutAtOpen : GlobText → Option (GlobText × GlobText)
  | [] => none
  | c :: rest =>
    if c = backslash then
      match rest with
      | [] => none
      | next :: rest => (cutAtOpen rest).map fun cut => (c :: next :: cut.1, cut.2)
    else if c = openBrace then some ([], rest)
    else (cutAtOpen rest).map fun cut => (c :: cut.1, cut.2)

/-- The alternatives of a group, and the text behind its `}`. -/
structure BraceGroup where
  first : GlobText
  more : List GlobText
  suffix : GlobText

def BraceGroup.alternatives (group : BraceGroup) : List GlobText := group.first :: group.more

def BraceGroup.prepend (text : GlobText) (group : BraceGroup) : BraceGroup :=
  { group with first := text ++ group.first }

/-- The rest of a group, `depth` braces open. Its commas are those at depth one. -/
def cutGroup (depth : Nat) : GlobText → Option BraceGroup
  | [] => none
  | c :: rest =>
    if c = backslash then
      match rest with
      | [] => none
      | next :: rest => (cutGroup depth rest).map (.prepend [c, next])
    else if c = openBrace then (cutGroup (depth + 1) rest).map (.prepend [c])
    else if c = closeBrace then
      if depth = 1 then some ⟨[], [], rest⟩ else (cutGroup (depth - 1) rest).map (.prepend [c])
    else if c = comma ∧ depth = 1 then
      (cutGroup depth rest).map fun group => ⟨[], group.alternatives, group.suffix⟩
    else (cutGroup depth rest).map (.prepend [c])

theorem cutAtOpen_cons {c : UInt8} {rest : GlobText} (other : c ≠ backslash) :
    cutAtOpen (c :: rest) =
      if c = openBrace then some ([], rest)
      else (cutAtOpen rest).map fun cut => (c :: cut.1, cut.2) := by
  rw [cutAtOpen.eq_def]
  exact if_neg other

theorem cutGroup_cons {depth : Nat} {c : UInt8} {rest : GlobText} (other : c ≠ backslash) :
    cutGroup depth (c :: rest) =
      if c = openBrace then (cutGroup (depth + 1) rest).map (.prepend [c])
      else if c = closeBrace then
        if depth = 1 then some ⟨[], [], rest⟩ else (cutGroup (depth - 1) rest).map (.prepend [c])
      else if c = comma ∧ depth = 1 then
        (cutGroup depth rest).map fun group => ⟨[], group.alternatives, group.suffix⟩
      else (cutGroup depth rest).map (.prepend [c]) := by
  rw [cutGroup.eq_def]
  exact if_neg other

theorem cutAtOpen_length {text : GlobText} {cut : GlobText × GlobText}
    (found : cutAtOpen text = some cut) : cut.1.length + cut.2.length < text.length := by
  fun_induction cutAtOpen text generalizing cut with
  | case1 => exact absurd found (Option.some_ne_none cut).symm
  | case2 => exact absurd found (Option.some_ne_none cut).symm
  | case3 =>
    rename_i ih
    obtain ⟨inner, rest, rfl⟩ := Option.map_eq_some_iff.mp found
    have := ih rest
    simp only [length_cons]
    omega
  | case4 =>
    obtain rfl := Option.some.inj found
    simp only [length_nil, length_cons]
    omega
  | case5 =>
    rename_i ih
    obtain ⟨inner, rest, rfl⟩ := Option.map_eq_some_iff.mp found
    have := ih rest
    simp only [length_cons]
    omega

theorem BraceGroup.prepend_length {text : GlobText} {group : BraceGroup} {n : Nat}
    (short : ∀ alternative ∈ group.alternatives, alternative.length + group.suffix.length < n)
    {alternative : GlobText} (mem : alternative ∈ (group.prepend text).alternatives) :
    alternative.length + (group.prepend text).suffix.length < text.length + n := by
  rcases mem_cons.mp mem with rfl | mem
  · have := short group.first mem_cons_self
    simp only [BraceGroup.prepend, length_append]
    omega
  · have := short alternative (mem_cons_of_mem _ mem)
    simp only [BraceGroup.prepend]
    omega

theorem cutGroup_length {depth : Nat} {text : GlobText} {group : BraceGroup}
    (found : cutGroup depth text = some group) : ∀ alternative ∈ group.alternatives,
      alternative.length + group.suffix.length < text.length := by
  fun_induction cutGroup depth text generalizing group with
  | case1 => exact absurd found (Option.some_ne_none group).symm
  | case2 => exact absurd found (Option.some_ne_none group).symm
  | case3 =>
    rename_i ih
    obtain ⟨inner, rest, rfl⟩ := Option.map_eq_some_iff.mp found
    intro alternative mem
    have := BraceGroup.prepend_length (ih rest) mem
    simp only [length_cons, length_nil] at this ⊢
    omega
  | case4 =>
    rename_i ih
    obtain ⟨inner, rest, rfl⟩ := Option.map_eq_some_iff.mp found
    intro alternative mem
    have := BraceGroup.prepend_length (ih rest) mem
    simp only [length_cons, length_nil] at this ⊢
    omega
  | case5 =>
    obtain rfl := Option.some.inj found
    intro alternative mem
    obtain rfl := mem_singleton.mp mem
    simp only [length_nil, length_cons]
    omega
  | case6 =>
    rename_i ih
    obtain ⟨inner, rest, rfl⟩ := Option.map_eq_some_iff.mp found
    intro alternative mem
    have := BraceGroup.prepend_length (ih rest) mem
    simp only [length_cons, length_nil] at this ⊢
    omega
  | case7 =>
    rename_i ih
    obtain ⟨inner, rest, rfl⟩ := Option.map_eq_some_iff.mp found
    intro alternative mem
    rcases mem_cons.mp mem with rfl | mem
    · have := ih rest inner.first mem_cons_self
      simp only [length_nil, length_cons]
      omega
    · have := ih rest alternative mem
      simp only [length_cons]
      omega
  | case8 =>
    rename_i ih
    obtain ⟨inner, rest, rfl⟩ := Option.map_eq_some_iff.mp found
    intro alternative mem
    have := BraceGroup.prepend_length (ih rest) mem
    simp only [length_cons, length_nil] at this ⊢
    omega

/-- `ExpandGlobBraces`: the patterns appended to those found. -/
def expandGlobBraces (pattern : GlobText) (out : List GlobText) : List GlobText :=
  if kMaxExpandedGlobPatterns ≤ out.length ∨ kMaxBraceExpansionPatternBytes < pattern.length then
    out
  else
    match _opens : cutAtOpen pattern with
    | none => out ++ [pattern]
    | some cut =>
      match _closes : cutGroup 1 cut.2 with
      -- An unbalanced `{` is literal text, and all behind it.
      | none => out ++ [pattern]
      | some group =>
        group.alternatives.attach.foldl
          (fun out alternative =>
            if kMaxExpandedGlobPatterns ≤ out.length then out
            else expandGlobBraces (cut.1 ++ alternative.1 ++ group.suffix) out)
          out
termination_by pattern.length
decreasing_by
  have before := cutAtOpen_length _opens
  have within := cutGroup_length _closes alternative.1 alternative.2
  rw [List.length_append, List.length_append]
  omega

/-! ### Patterns as trees -/

mutual

/-- A pattern, read from the left. -/
inductive Braces where
  | done
  | byte (c : UInt8) (rest : Braces)
  | escape (c : UInt8) (rest : Braces)
  | group (alternatives : Alternatives) (rest : Braces)

inductive Alternatives where
  | last (only : Braces)
  | more (first : Braces) (rest : Alternatives)

end

mutual

def Braces.render : Braces → GlobText
  | .done => []
  | .byte c rest => c :: rest.render
  | .escape c rest => backslash :: c :: rest.render
  | .group alternatives rest =>
    openBrace :: (alternatives.render ++ closeBrace :: rest.render)

def Alternatives.render : Alternatives → GlobText
  | .last only => only.render
  | .more first rest => first.render ++ comma :: rest.render

end

mutual

/-- The patterns that come of choosing an alternative for every group. -/
def Braces.choices : Braces → List GlobText
  | .done => [[]]
  | .byte c rest => rest.choices.map fun text => c :: text
  | .escape c rest => rest.choices.map fun text => backslash :: c :: text
  | .group alternatives rest =>
    alternatives.choices.flatMap fun choice => rest.choices.map fun text => choice ++ text

def Alternatives.choices : Alternatives → List GlobText
  | .last only => only.choices
  | .more first rest => first.choices ++ rest.choices

end

mutual

/-- Braces are groups', in a group commas are its own, and a backslash escapes unless it is last. -/
def Braces.WellFormed (inside : Bool) : Braces → Prop
  | .done => True
  | .byte c rest =>
    c ≠ openBrace ∧ c ≠ closeBrace ∧ (c = comma → inside = false) ∧
      (c = backslash → inside = false ∧ rest = .done) ∧ rest.WellFormed inside
  | .escape _ rest => rest.WellFormed inside
  | .group alternatives rest => alternatives.WellFormed ∧ rest.WellFormed inside

def Alternatives.WellFormed : Alternatives → Prop
  | .last only => only.WellFormed true
  | .more first rest => first.WellFormed true ∧ rest.WellFormed

end

def Alternatives.toList : Alternatives → List Braces
  | .last only => [only]
  | .more first rest => first :: rest.toList

/-- The braces open behind a text, where no `}` closes nothing. -/
def braceDepth (depth : Nat) : GlobText → Option Nat
  | [] => some depth
  | c :: rest =>
    if c = backslash then
      match rest with
      | [] => some depth
      | _ :: rest => braceDepth depth rest
    else if c = openBrace then braceDepth (depth + 1) rest
    else if c = closeBrace then if depth = 0 then none else braceDepth (depth - 1) rest
    else braceDepth depth rest

def BalancedBraces (pattern : GlobText) : Prop := braceDepth 0 pattern = some 0

instance (pattern : GlobText) : Decidable (BalancedBraces pattern) :=
  inferInstanceAs (Decidable (_ = _))

/-! ### Balanced patterns -/

def Alternatives.onFirst (f : Braces → Braces) : Alternatives → Alternatives
  | .last only => .last (f only)
  | .more first rest => .more (f first) rest

/-- A text that closes the braces open before it is a pattern, or the alternatives of the innermost
group and what is behind it. -/
def ReadsAs : Nat → GlobText → Prop
  | 0, text => ∃ tree : Braces, tree.WellFormed false ∧ tree.render = text
  | depth + 1, text => ∃ alternatives : Alternatives, ∃ suffix, alternatives.WellFormed ∧
      text = alternatives.render ++ closeBrace :: suffix ∧ braceDepth depth suffix = some 0

theorem ReadsAs.onFirst {f : Braces → Braces} {front : GlobText} {depth : Nat} {text : GlobText}
    (renders : ∀ tree, (f tree).render = front ++ tree.render)
    (wellFormed : ∀ tree, tree.WellFormed (depth ≠ 0) → (f tree).WellFormed (depth ≠ 0))
    (reads : ReadsAs depth text) : ReadsAs depth (front ++ text) := by
  cases depth with
  | zero =>
    obtain ⟨tree, formed, rfl⟩ := reads
    exact ⟨f tree, wellFormed tree formed, renders tree⟩
  | succ depth =>
    obtain ⟨alternatives, suffix, formed, rfl, rest⟩ := reads
    refine ⟨alternatives.onFirst f, suffix, ?_, ?_, rest⟩
    · cases alternatives with
      | last only => exact wellFormed only formed
      | more first more => exact ⟨wellFormed first formed.1, formed.2⟩
    · cases alternatives with
      | last only =>
        rw [Alternatives.onFirst, Alternatives.render, Alternatives.render, renders, append_assoc]
      | more first more =>
        rw [Alternatives.onFirst, Alternatives.render, Alternatives.render, renders]
        simp only [append_assoc]

theorem readsAs_of_braceDepth {depth : Nat} {text : GlobText}
    (closes : braceDepth depth text = some 0) : ReadsAs depth text := by
  induction length : text.length using Nat.strong_induction_on generalizing depth text with
  | _ n ih =>
    subst length
    cases text with
    | nil =>
      obtain rfl : depth = 0 := Option.some.inj closes
      exact ⟨.done, trivial, rfl⟩
    | cons c rest =>
      rw [braceDepth.eq_def] at closes
      dsimp only at closes
      split at closes
      next escapes =>
        subst escapes
        cases rest with
        | nil =>
          obtain rfl : depth = 0 := Option.some.inj closes
          exact ⟨.byte backslash .done, ⟨by decide, by decide, by decide, fun _ => ⟨rfl, rfl⟩,
            trivial⟩, rfl⟩
        | cons next rest =>
          have tail := ih rest.length (by simp only [length_cons]; omega) closes rfl
          exact @ReadsAs.onFirst (.escape next) [backslash, next] _ _ (fun _ => rfl)
            (fun _ formed => formed) tail
      next notEscape =>
        split at closes
        next opens =>
          subst opens
          obtain ⟨alternatives, suffix, formed, rfl, behind⟩ :=
            ih rest.length (Nat.lt_succ_self _) closes rfl
          have shorter : suffix.length <
              (openBrace :: (alternatives.render ++ closeBrace :: suffix)).length := by
            simp only [length_cons, length_append]
            omega
          have tail := ih suffix.length shorter behind rfl
          have whole := @ReadsAs.onFirst (.group alternatives)
            (openBrace :: (alternatives.render ++ [closeBrace])) _ _
            (fun tree => by simp [Braces.render]) (fun _ rest => ⟨formed, rest⟩) tail
          simpa using whole
        next notOpen =>
          split at closes
          next isClose =>
            subst isClose
            split at closes
            · exact absurd closes (Option.some_ne_none 0).symm
            next inside =>
              obtain ⟨depth, rfl⟩ := Nat.exists_eq_succ_of_ne_zero inside
              exact ⟨.last .done, rest, trivial, rfl, closes⟩
          next notClose =>
            have tail := ih rest.length (Nat.lt_succ_self _) closes rfl
            by_cases separates : c = comma ∧ depth ≠ 0
            · obtain ⟨rfl, inside⟩ := separates
              obtain ⟨depth, rfl⟩ := Nat.exists_eq_succ_of_ne_zero inside
              obtain ⟨alternatives, suffix, formed, rfl, behind⟩ := tail
              exact ⟨.more .done alternatives, suffix, ⟨trivial, formed⟩, rfl, behind⟩
            · refine @ReadsAs.onFirst (.byte c) [c] _ _ (fun _ => rfl) (fun _ formed => ?_) tail
              refine ⟨notOpen, notClose, fun isComma => ?_, fun same => absurd same notEscape, formed⟩
              exact decide_eq_false fun inside => separates ⟨isComma, inside⟩

/-- Balanced patterns are texts of trees. -/
theorem exists_braces {pattern : GlobText} (balanced : BalancedBraces pattern) :
    ∃ tree : Braces, tree.WellFormed false ∧ tree.render = pattern :=
  readsAs_of_braceDepth balanced

/-! ### The cut at the first group -/

def Braces.append : Braces → Braces → Braces
  | .done, tail => tail
  | .byte c rest, tail => .byte c (rest.append tail)
  | .escape c rest, tail => .escape c (rest.append tail)
  | .group alternatives rest, tail => .group alternatives (rest.append tail)

theorem Braces.append_render : ∀ (tree tail : Braces),
    (tree.append tail).render = tree.render ++ tail.render
  | .done, _ => rfl
  | .byte c rest, tail => by rw [append, render, render, append_render, cons_append]
  | .escape c rest, tail => by
    rw [append, render, render, append_render, cons_append, cons_append]
  | .group alternatives rest, tail => by
    rw [append, render, render, append_render, cons_append, append_assoc, cons_append]

theorem Braces.append_choices : ∀ (tree tail : Braces),
    (tree.append tail).choices =
      tree.choices.flatMap fun choice => tail.choices.map fun text => choice ++ text
  | .done, tail => by simp [append, choices]
  | .byte c rest, tail => by
    rw [append, choices, choices, append_choices, map_flatMap, flatMap_map]
    simp only [map_map]
    rfl
  | .escape c rest, tail => by
    rw [append, choices, choices, append_choices, map_flatMap, flatMap_map]
    simp only [map_map]
    rfl
  | .group alternatives rest, tail => by
    rw [append, choices, choices, append_choices, flatMap_assoc]
    congr 1
    funext choice
    rw [map_flatMap, flatMap_map]
    simp only [map_map, append_assoc]
    rfl

theorem Braces.WellFormed.append {inside : Bool} {tail : Braces} (formed : tail.WellFormed inside) :
    ∀ tree : Braces, tree.WellFormed true → (tree.append tail).WellFormed inside
  | .done, _ => formed
  | .byte _ rest, ⟨notOpen, notClose, separator, last, tree⟩ =>
    ⟨notOpen, notClose, fun same => Bool.noConfusion (separator same),
      fun same => Bool.noConfusion (last same).1, append formed rest tree⟩
  | .escape _ rest, tree => append formed rest tree
  | .group _ rest, ⟨alternatives, tree⟩ => ⟨alternatives, append formed rest tree⟩

theorem Alternatives.choices_toList : ∀ alternatives : Alternatives,
    alternatives.choices = alternatives.toList.flatMap Braces.choices
  | .last only => by simp [choices, toList]
  | .more first rest => by rw [choices, toList, flatMap_cons, choices_toList]

/-- The patterns with the first group chosen; none where there is no group. -/
def Braces.firstChoices : Braces → Option (List Braces)
  | .done => none
  | .byte c rest => rest.firstChoices.map (List.map (.byte c))
  | .escape c rest => rest.firstChoices.map (List.map (.escape c))
  | .group alternatives rest =>
    some (alternatives.toList.map fun alternative => alternative.append rest)

theorem Alternatives.wellFormed_toList : ∀ {alternatives : Alternatives}, alternatives.WellFormed →
    ∀ tree ∈ alternatives.toList, tree.WellFormed true
  | .last only, formed, tree, mem => mem_singleton.mp mem ▸ formed
  | .more first rest, formed, tree, mem => by
    rcases mem_cons.mp mem with rfl | mem
    · exact formed.1
    · exact wellFormed_toList formed.2 tree mem

theorem Braces.WellFormed.firstChoices {inside : Bool} : ∀ {tree : Braces} {trees : List Braces},
    tree.WellFormed inside → tree.firstChoices = some trees →
    ∀ choice ∈ trees, choice.WellFormed inside
  | .done, trees, _, none_, _, _ => absurd none_ (Option.some_ne_none trees).symm
  | .byte c rest, trees, ⟨notOpen, notClose, separator, last, formed⟩, found, choice, mem => by
    obtain ⟨inner, tail, rfl⟩ := Option.map_eq_some_iff.mp found
    obtain ⟨text, among, rfl⟩ := mem_map.mp mem
    refine ⟨notOpen, notClose, separator, fun same => ?_, formed.firstChoices tail text among⟩
    rw [(last same).2] at tail
    exact absurd tail (Option.some_ne_none inner).symm
  | .escape c rest, trees, formed, found, choice, mem => by
    obtain ⟨inner, tail, rfl⟩ := Option.map_eq_some_iff.mp found
    obtain ⟨text, among, rfl⟩ := mem_map.mp mem
    exact @WellFormed.firstChoices _ rest _ formed tail text among
  | .group alternatives rest, trees, ⟨own, formed⟩, found, choice, mem => by
    obtain rfl := Option.some.inj found
    obtain ⟨alternative, among, rfl⟩ := mem_map.mp mem
    exact formed.append alternative (Alternatives.wellFormed_toList own alternative among)

theorem Braces.choices_firstChoices : ∀ {tree : Braces} {trees : List Braces},
    tree.firstChoices = some trees → tree.choices = trees.flatMap Braces.choices
  | .done, trees, none_ => absurd none_ (Option.some_ne_none trees).symm
  | .byte c rest, trees, found => by
    obtain ⟨inner, tail, rfl⟩ := Option.map_eq_some_iff.mp found
    rw [choices, choices_firstChoices tail, map_flatMap, flatMap_map]
    rfl
  | .escape c rest, trees, found => by
    obtain ⟨inner, tail, rfl⟩ := Option.map_eq_some_iff.mp found
    rw [choices, choices_firstChoices tail, map_flatMap, flatMap_map]
    rfl
  | .group alternatives rest, trees, found => by
    obtain rfl := Option.some.inj found
    rw [choices, Alternatives.choices_toList, flatMap_map, flatMap_assoc]
    simp only [Braces.append_choices]

theorem Braces.choices_plain : ∀ {tree : Braces}, tree.firstChoices = none →
    tree.choices = [tree.render]
  | .done, _ => rfl
  | .byte c rest, none_ => by
    rw [choices, choices_plain (Option.map_eq_none_iff.mp none_)]
    rfl
  | .escape c rest, none_ => by
    rw [choices, choices_plain (Option.map_eq_none_iff.mp none_)]
    rfl
  | .group alternatives rest, none_ => absurd none_ (Option.some_ne_none _)

theorem prepend_prepend (front text : GlobText) (group : BraceGroup) :
    (group.prepend text).prepend front = group.prepend (front ++ text) := by
  rw [BraceGroup.prepend, BraceGroup.prepend, BraceGroup.prepend, append_assoc]

mutual

/-- A pattern inside of a group is passed over. -/
theorem Braces.cutGroup_render : ∀ {tree : Braces}, tree.WellFormed true →
    ∀ (depth : Nat) (text : GlobText), cutGroup (depth + 1) (tree.render ++ text) =
      (cutGroup (depth + 1) text).map (.prepend tree.render)
  | .done, _, depth, text => by
    rw [Braces.render, nil_append]
    exact Option.map_id'.symm
  | .byte c rest, ⟨notOpen, notClose, separator, last, formed⟩, depth, text => by
    have notEscape : c ≠ backslash := fun same => Bool.noConfusion (last same).1
    have notComma : ¬(c = comma ∧ depth + 1 = 1) := fun same =>
      Bool.noConfusion (separator same.1)
    rw [Braces.render, cons_append, cutGroup_cons notEscape, if_neg notOpen, if_neg notClose,
      if_neg notComma, Braces.cutGroup_render formed depth text, Option.map_map]
    congr 1
  | .escape c rest, formed, depth, text => by
    rw [Braces.render, cons_append, cons_append, cutGroup,
      @Braces.cutGroup_render rest formed depth text, Option.map_map]
    congr 1
  | .group alternatives rest, ⟨own, formed⟩, depth, text => by
    rw [Braces.render, cons_append, cutGroup_cons (by decide), if_pos rfl, append_assoc,
      Alternatives.cutGroup_render own depth, cons_append, cutGroup_cons (by decide),
      if_neg (by decide), if_pos rfl, if_neg (by omega), show depth + 2 - 1 = depth + 1 from rfl,
      Braces.cutGroup_render formed depth text]
    simp only [Option.map_map]
    congr 1
    funext group
    simp [prepend_prepend]

theorem Alternatives.cutGroup_render : ∀ {alternatives : Alternatives}, alternatives.WellFormed →
    ∀ (depth : Nat) (text : GlobText), cutGroup (depth + 2) (alternatives.render ++ text) =
      (cutGroup (depth + 2) text).map (.prepend alternatives.render)
  | .last only, formed, depth, text => Braces.cutGroup_render formed (depth + 1) text
  | .more first rest, ⟨head, formed⟩, depth, text => by
    rw [Alternatives.render, append_assoc, Braces.cutGroup_render head (depth + 1), cons_append,
      cutGroup_cons (by decide), if_neg (by decide), if_neg (by decide), if_neg (by omega),
      Alternatives.cutGroup_render formed depth text]
    simp only [Option.map_map]
    congr 1
    funext group
    simp [prepend_prepend]

end

/-- A group is cut into its own alternatives. -/
theorem Alternatives.cutGroup_close : ∀ {alternatives : Alternatives}, alternatives.WellFormed →
    ∀ text : GlobText, ∃ group : BraceGroup,
      cutGroup 1 (alternatives.render ++ closeBrace :: text) = some group ∧
        group.alternatives = alternatives.toList.map Braces.render ∧ group.suffix = text
  | .last only, formed, text => by
    refine ⟨⟨only.render, [], text⟩, ?_, rfl, rfl⟩
    rw [Alternatives.render, @Braces.cutGroup_render only formed 0,
      cutGroup_cons (by decide), if_neg (by decide), if_pos rfl, if_pos rfl, Option.map_some,
      BraceGroup.prepend, append_nil]
  | .more first rest, ⟨head, formed⟩, text => by
    obtain ⟨group, cut, alternatives, suffix⟩ := cutGroup_close formed text
    refine ⟨⟨first.render, group.alternatives, group.suffix⟩, ?_, ?_, suffix⟩
    · rw [Alternatives.render, append_assoc, Braces.cutGroup_render head 0, cons_append,
        cutGroup_cons (by decide), if_neg (by decide), if_neg (by decide), if_pos ⟨rfl, rfl⟩, cut,
        Option.map_some, Option.map_some, BraceGroup.prepend, append_nil]
    · rw [Alternatives.toList, map_cons, ← alternatives]
      rfl

/-- A pattern without groups is not cut. -/
theorem Braces.cutAtOpen_plain : ∀ {tree : Braces} {inside : Bool}, tree.WellFormed inside →
    tree.firstChoices = none → cutAtOpen tree.render = none
  | .done, _, _, _ => rfl
  | .byte c rest, _, ⟨notOpen, _, _, last, formed⟩, none_ => by
    by_cases escapes : c = backslash
    · rw [(last escapes).2, escapes]
      rfl
    · rw [render, cutAtOpen_cons escapes, if_neg notOpen,
        cutAtOpen_plain formed (Option.map_eq_none_iff.mp none_)]
      rfl
  | .escape c rest, _, formed, none_ => by
    rw [render, cutAtOpen, @cutAtOpen_plain rest _ formed (Option.map_eq_none_iff.mp none_)]
    rfl
  | .group alternatives rest, _, _, none_ => absurd none_ (Option.some_ne_none _)

/-- The cut of a pattern with groups, and what the alternatives make in the first one's place. -/
theorem Braces.cutAtOpen_firstChoices : ∀ {tree : Braces} {inside : Bool} {trees : List Braces},
    tree.WellFormed inside → tree.firstChoices = some trees →
    ∃ cut group, cutAtOpen tree.render = some cut ∧ cutGroup 1 cut.2 = some group ∧
      group.alternatives.map (fun alternative => cut.1 ++ alternative ++ group.suffix) =
        trees.map Braces.render
  | .done, _, trees, _, none_ => absurd none_ (Option.some_ne_none trees).symm
  | .byte c rest, _, trees, ⟨notOpen, _, _, last, formed⟩, found => by
    obtain ⟨inner, tail, rfl⟩ := Option.map_eq_some_iff.mp found
    have notEscape : c ≠ backslash := by
      intro same
      rw [(last same).2] at tail
      exact absurd tail (Option.some_ne_none inner).symm
    obtain ⟨cut, group, cuts, closes, same⟩ := cutAtOpen_firstChoices formed tail
    refine ⟨(c :: cut.1, cut.2), group, ?_, closes, ?_⟩
    · rw [render, cutAtOpen_cons notEscape, if_neg notOpen, cuts, Option.map_some]
    · have := congrArg (List.map (List.cons c)) same
      rw [map_map, map_map] at this
      rw [map_map]
      exact this
  | .escape c rest, _, trees, formed, found => by
    obtain ⟨inner, tail, rfl⟩ := Option.map_eq_some_iff.mp found
    obtain ⟨cut, group, cuts, closes, same⟩ := @cutAtOpen_firstChoices rest _ _ formed tail
    refine ⟨(backslash :: c :: cut.1, cut.2), group, ?_, closes, ?_⟩
    · rw [render, cutAtOpen, if_pos rfl, cuts, Option.map_some]
    · have := congrArg (List.map fun text => backslash :: c :: text) same
      rw [map_map, map_map] at this
      rw [map_map]
      exact this
  | .group alternatives rest, _, trees, ⟨own, formed⟩, found => by
    obtain rfl := Option.some.inj found
    obtain ⟨group, closes, choices, suffix⟩ := Alternatives.cutGroup_close own rest.render
    refine ⟨([], alternatives.render ++ closeBrace :: rest.render), group, ?_, closes, ?_⟩
    · rw [render, cutAtOpen_cons (by decide), if_pos rfl]
    · rw [choices, suffix, map_map, map_map]
      exact map_congr_left fun tree _ => (append_render tree rest).symm

/-! ### The expansion of a balanced pattern -/

mutual

theorem Braces.choices_ne_nil : ∀ tree : Braces, tree.choices ≠ []
  | .done => cons_ne_nil _ _
  | .byte c rest => fun none_ => Braces.choices_ne_nil rest (map_eq_nil_iff.mp none_)
  | .escape c rest => fun none_ => Braces.choices_ne_nil rest (map_eq_nil_iff.mp none_)
  | .group alternatives rest => by
    obtain ⟨choice, more, some_⟩ :=
      exists_cons_of_ne_nil (Alternatives.choices_ne_nil alternatives)
    rw [Braces.choices, some_, flatMap_cons]
    exact append_ne_nil_of_left_ne_nil
      (fun none_ => Braces.choices_ne_nil rest (map_eq_nil_iff.mp none_)) _

theorem Alternatives.choices_ne_nil : ∀ alternatives : Alternatives, alternatives.choices ≠ []
  | .last only => Braces.choices_ne_nil only
  | .more first _ => append_ne_nil_of_left_ne_nil (Braces.choices_ne_nil first) _

end

/-- Patterns one after the other, each expanded behind what is found. -/
theorem foldl_expand {trees : List Braces}
    (each : ∀ tree ∈ trees, ∀ out : List GlobText,
      out.length + tree.choices.length ≤ kMaxExpandedGlobPatterns →
        expandGlobBraces tree.render out = out ++ tree.choices)
    {out : List GlobText}
    (fits : out.length + (trees.flatMap Braces.choices).length ≤ kMaxExpandedGlobPatterns) :
    (trees.map Braces.render).foldl
        (fun out pattern =>
          if kMaxExpandedGlobPatterns ≤ out.length then out else expandGlobBraces pattern out)
        out = out ++ trees.flatMap Braces.choices := by
  induction trees generalizing out with
  | nil => exact (append_nil out).symm
  | cons tree trees ih =>
    rw [flatMap_cons, length_append] at fits
    have some_ := length_pos_of_ne_nil tree.choices_ne_nil
    rw [map_cons, foldl_cons, if_neg (by omega), each tree mem_cons_self out (by omega),
      ih (fun tree mem => each tree (mem_cons_of_mem _ mem))
        (by rw [length_append]; omega),
      flatMap_cons, append_assoc]

theorem expandGlobBraces_render {tree : Braces} (formed : tree.WellFormed false)
    (short : tree.render.length ≤ kMaxBraceExpansionPatternBytes) {out : List GlobText}
    (fits : out.length + tree.choices.length ≤ kMaxExpandedGlobPatterns) :
    expandGlobBraces tree.render out = out ++ tree.choices := by
  induction length : tree.render.length using Nat.strong_induction_on generalizing tree out with
  | _ n ih =>
    subst length
    have some_ := length_pos_of_ne_nil tree.choices_ne_nil
    have room : ¬(kMaxExpandedGlobPatterns ≤ out.length ∨
        kMaxBraceExpansionPatternBytes < tree.render.length) := by omega
    rw [expandGlobBraces, if_neg room]
    cases first : tree.firstChoices with
    | none =>
      have plain := Braces.cutAtOpen_plain formed first
      rw [Braces.choices_plain first]
      split
      · rfl
      next cut opens =>
        exact absurd (plain.symm.trans opens) (Option.some_ne_none cut).symm
    | some trees =>
      obtain ⟨cut, group, opens, closes, same⟩ := Braces.cutAtOpen_firstChoices formed first
      split
      next plain =>
        exact absurd (opens.symm.trans plain) (Option.some_ne_none cut)
      next cut' opens' =>
        obtain rfl := Option.some.inj (opens.symm.trans opens')
        split
        next open_ =>
          exact absurd (closes.symm.trans open_) (Option.some_ne_none group)
        next group' closes' =>
          obtain rfl := Option.some.inj (closes.symm.trans closes')
          have shorter : ∀ choice ∈ trees, choice.render.length < tree.render.length := by
            intro choice mem
            have among := same ▸ mem_map_of_mem (f := Braces.render) mem
            obtain ⟨alternative, mem, made⟩ := mem_map.mp among
            have before := cutAtOpen_length opens
            have within := cutGroup_length closes alternative mem
            rw [← made, length_append, length_append]
            omega
          have expanded := @foldl_expand trees
            (fun choice mem out fits => ih choice.render.length (shorter choice mem)
              (formed.firstChoices first choice mem) ((shorter choice mem).le.trans short) fits rfl)
            out (Braces.choices_firstChoices first ▸ fits)
          rw [Braces.choices_firstChoices first, ← expanded, ← same, foldl_map]
          exact @foldl_attach _ _ group.alternatives
            (fun out alternative =>
              if kMaxExpandedGlobPatterns ≤ out.length then out
              else expandGlobBraces (cut.1 ++ alternative ++ group.suffix) out)
            out

/-- **The expansion of a pattern with balanced braces** is the product of its alternatives. -/
theorem expandGlobBraces_choices {pattern : GlobText} (balanced : BalancedBraces pattern)
    (short : pattern.length ≤ kMaxBraceExpansionPatternBytes) :
    (∃ tree : Braces, tree.WellFormed false ∧ tree.render = pattern) ∧
      ∀ tree : Braces, tree.WellFormed false → tree.render = pattern → ∀ out : List GlobText,
        out.length + tree.choices.length ≤ kMaxExpandedGlobPatterns →
          expandGlobBraces pattern out = out ++ tree.choices := by
  refine ⟨exists_braces balanced, ?_⟩
  rintro tree formed rfl out fits
  exact expandGlobBraces_render formed short fits

/-- `{a,b{c,d}}\,`: a group in an alternative, and an escaped comma. -/
theorem expandGlobBraces_choices_nested :
    expandGlobBraces [0x7B, 0x61, 0x2C, 0x62, 0x7B, 0x63, 0x2C, 0x64, 0x7D, 0x7D, 0x5C, 0x2C] [] =
      [[0x61, 0x5C, 0x2C], [0x62, 0x63, 0x5C, 0x2C], [0x62, 0x64, 0x5C, 0x2C]] :=
  (@expandGlobBraces_choices
    [0x7B, 0x61, 0x2C, 0x62, 0x7B, 0x63, 0x2C, 0x64, 0x7D, 0x7D, 0x5C, 0x2C]
    (by decide) (by decide)).2
    (.group
      (.more (.byte 0x61 .done)
        (.last (.byte 0x62 (.group (.more (.byte 0x63 .done) (.last (.byte 0x64 .done))) .done))))
      (.escape 0x2C .done))
    (by simp [Braces.WellFormed, Alternatives.WellFormed]; decide) rfl [] (by decide)

end Microide.Project
