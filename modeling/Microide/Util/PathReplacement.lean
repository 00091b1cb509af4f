/-
Prefix replacement, and the text shortcuts against the library.

A path that a rename moves is put together from the new prefix and what `lexically_relative` leaves of
it, and normalized once more. By names: the old prefix's go, the new one's come, the rest stays.

**Main results.** `replacePathPrefix_within`, `replacePathPrefix_outside`: the replacement by names;
`pathTextShortcuts`: the shortcuts together.
-/

import Microide.Util.PathPrefixes

namespace Microide.Util

open List

variable {text : PathText}

section Replacement

variable {path old new : PathText}

/-- The candidate goes on from a root of `..` leaders with one more. -/
def ClimbsOn (candidate root : PathText) : Prop :=
  pathNames root ≠ [] ∧ ∃ rest, pathNames candidate = pathNames root ++ dotDotName :: rest

/-- Containment of normal paths, where no root of leaders is left upwards. -/
theorem within_iff {candidate root : PathText} (c : IsNormal candidate) (r : IsNormal root)
    (stays : ¬ClimbsOn candidate root) :
    normalizedPathTextEqualsOrWithin candidate root = true ↔ ComponentWithin candidate root := by
  by_cases some_ : candidate ≠ [] ∧ root ≠ []
  · obtain ⟨cn, cd, cs⟩ := c.spelled some_.1
    obtain ⟨rn, rd, rs⟩ := r.spelled some_.2
    rw [within_spelled cs rs]
    constructor
    · rintro ⟨rooted, rest, below, climbs⟩
      refine ⟨some_, rooted, rest, ?_, fun head => ?_⟩
      · rw [cs.pathNames_eq, rs.pathNames_eq, below]
      · obtain ⟨more, rfl⟩ := head?_eq_some_iff.mp head
        refine stays ⟨fun none_ => ?_, more, ?_⟩
        · exact climbs (rs.pathNames_eq.symm.trans none_) rfl
        · rw [cs.pathNames_eq, rs.pathNames_eq, below]
    · rintro ⟨-, rooted, rest, below, climbs⟩
      refine ⟨rooted, rest, ?_, fun _ => climbs⟩
      rw [← cs.pathNames_eq, ← rs.pathNames_eq, below]
  · constructor
    · intro within
      rw [normalizedPathTextEqualsOrWithin, if_pos (by tauto)] at within
      exact absurd within Bool.false_ne_true
    · exact fun within => absurd within.spelled some_

/-! ### Normal texts -/

theorem lastPart_concat {last : PathText} {init : List PathText}
    (parts : text.splitOn slash = init ++ [last]) : (text.splitOn slash).getLastD [] = last := by
  rw [parts, getLastD_concat]

/-- A text spelled as a normal path is normal. -/
theorem Spelled.isNormal {rooted : Bool} {names : List PathText} {directory : Bool}
    (spelled : Spelled text rooted names directory) : IsNormal text := by
  have normal := lexicallyNormal_parts spelled.ne_nil
    (by rw [spelled.isRooted_eq, spelled.pathNames_eq]; exact spelled.normal)
  rw [spelled.isRooted_eq, spelled.pathNames_eq] at normal
  rw [IsNormal, normal]
  refine Eq.trans ?_ spelled.text_eq.symm
  by_cases none_ : names = []
  · rw [normalParts, if_pos none_, normalParts, if_pos none_]
  have parts := spelled.parts
  rw [normalParts, if_neg none_] at parts
  congr 2
  cases directory with
  | true =>
    rw [lastPart_concat parts]
    exact decide_eq_true ⟨none_, (spelled.ends rfl).2, .inl rfl⟩
  | false =>
    obtain ⟨front, last, rfl⟩ := (eq_nil_or_concat' names).resolve_left none_
    rw [if_neg Bool.false_ne_true, append_nil, ← append_assoc] at parts
    rw [lastPart_concat parts, decide_eq_false_iff_not]
    have real := isRealName_iff.mp (spelled.normal.plain last (by simp)).1
    rintro ⟨-, leads, empty | dot | leader⟩
    · exact real (.inl empty)
    · exact real (.inr dot)
    · exact leads (by rw [leader, getLast?_concat])

theorem IsNormal.names (normal : IsNormal text) : NormalNames (isRooted text) (pathNames text) := by
  by_cases none_ : text = []
  · subst none_
    exact .nil
  · obtain ⟨names, directory, spelled⟩ := normal.spelled none_
    rw [spelled.pathNames_eq]
    exact spelled.normal

/-! ### Appended paths -/

/-- What is put behind a path: the names, whether it is rooted and the last part. -/
theorem pathAppend_spec {a b : PathText} (relative : isRooted b = false) :
    pathNames (pathAppend a b) = pathNames a ++ pathNames b ∧
      isRooted (pathAppend a b) = isRooted a ∧
      ((pathAppend a b).splitOn slash).getLastD [] = (b.splitOn slash).getLastD [] := by
  have behind (front : PathText) : ((front ++ slash :: b).splitOn slash).getLastD [] =
      (b.splitOn slash).getLastD [] := by
    rw [splitOn_append_cons_self]
    obtain ⟨init, last, parts⟩ :=
      (eq_nil_or_concat' (b.splitOn slash)).resolve_left (splitOn_ne_nil _ _)
    rw [parts, ← append_assoc, getLastD_concat, getLastD_concat]
  rw [pathAppend, relative, if_neg Bool.false_ne_true]
  by_cases some_ : a = []
  · subst some_
    exact ⟨rfl, relative, rfl⟩
  · by_cases ends : a.getLast? = some slash
    · obtain ⟨front, rfl⟩ := getLast?_eq_some_iff.mp ends
      rw [if_neg fun both => both.2 ends, append_assoc, singleton_append,
        pathNames_append, pathNames_append]
      refine ⟨by simp [pathNames, isRealName], ?_, behind front⟩
      rw [← singleton_append, ← append_assoc]
      exact isRooted_append some_ b
    · rw [if_pos ⟨some_, ends⟩, append_assoc, singleton_append, pathNames_append]
      exact ⟨rfl, isRooted_append some_ _, behind a⟩

/-- The text of names put behind a normal path. -/
theorem spelled_append {relative : PathText} (n : IsNormal new) (free : isRooted relative = false)
    (some_ : relative ≠ [])
    (plain : ∀ name ∈ pathNames relative, isRealName name = true ∧ slash ∉ name)
    (noLeader : dotDotName ∉ pathNames relative) :
    ∃ directory, Spelled (lexicallyNormal (pathAppend new relative)) (isRooted new)
        (pathNames new ++ pathNames relative) directory ∧
      (pathNames relative ≠ [] → (directory = true ↔
        (relative.splitOn slash).getLastD [] = [] ∨
          (relative.splitOn slash).getLastD [] = dotName)) := by
  obtain ⟨names, rooted, last⟩ := @pathAppend_spec new relative free
  have normal : NormalNames (isRooted new) (pathNames new ++ pathNames relative) :=
    n.names.append plain noLeader
  have filled : pathAppend new relative ≠ [] := by
    rw [pathAppend, free, if_neg Bool.false_ne_true]
    exact append_ne_nil_of_right_ne_nil _ some_
  have text := lexicallyNormal_parts filled (by rw [names, rooted]; exact normal)
  rw [names, rooted, last] at text
  refine ⟨_, ⟨normal, (congrArg (List.splitOn slash) text).trans (splitOn_normalParts normal),
    fun dir => ⟨(of_decide_eq_true dir).1, (of_decide_eq_true dir).2.1⟩⟩, fun named => ?_⟩
  rw [decide_eq_true_eq, getLast?_append_of_ne_nil _ named]
  obtain ⟨init, part, parts⟩ :=
    (eq_nil_or_concat' (relative.splitOn slash)).resolve_left (splitOn_ne_nil _ _)
  rw [lastPart_concat parts]
  constructor
  · rintro ⟨-, -, empty | dot | leader⟩
    · exact .inl empty
    · exact .inr dot
    · refine absurd (mem_filter.mpr ⟨?_, by decide⟩) noLeader
      rw [parts, leader]
      exact mem_append_right _ (mem_singleton_self _)
  · intro ends
    exact ⟨append_ne_nil_of_right_ne_nil _ named,
      fun leader => noLeader (mem_of_getLast? leader), ends.imp_right .inl⟩

/-! ### Replacement -/

/-- **A path outside of the old prefix** stays. -/
theorem replacePathPrefix_outside (p : IsNormal path) (o : IsNormal old)
    (stays : ¬ClimbsOn path old) (outside : ¬ComponentWithin path old) :
    replacePathPrefix path old new = path := by
  have apart := Bool.eq_false_iff.mpr fun within => outside ((within_iff p o stays).mp within)
  rw [replacePathPrefix, show lexicallyNormal path = path from p,
    show lexicallyNormal old = old from o]
  exact if_pos apart

/-- Normal paths that are rooted alike are the same path where they are one text. -/
theorem samePath_iff {a b : PathText} {rooted : Bool} {an bn : List PathText} {ad bd : Bool}
    (as : Spelled a rooted an ad) (bs : Spelled b rooted bn bd) : samePath a b = true ↔ a = b := by
  refine ⟨fun same => ?_, fun same => decide_eq_true (congrArg pathComponents same)⟩
  have components := of_decide_eq_true same
  rw [as.components, bs.components, append_assoc, append_assoc, append_cancel_left_eq] at components
  have kept {names : List PathText} {directory : Bool} (normal : NormalNames rooted names) :
      ((if rooted = false ∧ names = [] then [dotName] else names) ++
        if directory then [[]] else []).filter isRealName = names := by
    have all : names.filter isRealName = names :=
      filter_eq_self.mpr fun name mem => (normal.plain name mem).1
    rw [filter_append]
    split
    next none_ =>
      rw [none_.2]
      cases directory <;> rfl
    · rw [all]
      cases directory <;> simp [isRealName]
  have names : an = bn := by
    rw [← @kept an ad as.normal, components, kept bs.normal]
  subst names
  have ends := append_cancel_left components
  have directory : ad = bd := by
    cases ad with
    | true =>
      cases bd with
      | true => rfl
      | false => exact absurd ends (cons_ne_nil _ _)
    | false =>
      cases bd with
      | true => exact absurd ends.symm (cons_ne_nil _ _)
      | false => rfl
  rw [as.text_eq, bs.text_eq, directory]

theorem Spelled.lastPart_iff {names : List PathText} {directory : Bool}
    (spelled : Spelled text false names directory) (some_ : names ≠ []) :
    ((text.splitOn slash).getLastD [] = [] ∨ (text.splitOn slash).getLastD [] = dotName) ↔
      directory = true := by
  have parts := spelled.parts
  rw [normalParts, if_neg some_] at parts
  cases directory with
  | true =>
    rw [lastPart_concat parts]
    exact iff_of_true (.inl rfl) rfl
  | false =>
    obtain ⟨front, last, rfl⟩ := (eq_nil_or_concat' names).resolve_left some_
    rw [if_neg Bool.false_ne_true, append_nil, nil_append] at parts
    rw [lastPart_concat parts]
    exact iff_of_false (isRealName_iff.mp (spelled.normal.plain last (by simp)).1)
      Bool.false_ne_true

/-- **A path within the old prefix**: the new prefix's names, then those behind the old one's. -/
theorem replacePathPrefix_within (p : IsNormal path) (o : IsNormal old) (n : IsNormal new)
    (stays : ¬ClimbsOn path old) (within : ComponentWithin path old) {rest : List PathText}
    (below : pathNames path = pathNames old ++ rest) : IsNormal (replacePathPrefix path old new) ∧
      isRooted (replacePathPrefix path old new) = isRooted new ∧
      pathNames (replacePathPrefix path old new) = pathNames new ++ rest ∧
      (rest ≠ [] → ((replacePathPrefix path old new).getLast? = some slash ↔
        path.getLast? = some slash)) ∧
      (path = old → replacePathPrefix path old new = new) := by
  have inside := (within_iff p o stays).mpr within
  obtain ⟨pn, pd, ps⟩ := p.spelled within.spelled.1
  obtain ⟨on, od, os⟩ := o.spelled within.spelled.2
  rw [within.rooted] at ps
  have names : pn = on ++ rest := by rw [← ps.pathNames_eq, below, os.pathNames_eq]
  subst names
  have begins : rest.head? ≠ some dotDotName := by
    obtain ⟨rest', cut, begins⟩ := within.below
    rwa [append_cancel_left (below.symm.trans cut)]
  have plain : ∀ name ∈ rest, isRealName name = true ∧ slash ∉ name :=
    fun name mem => ps.normal.plain name (mem_append_right _ mem)
  have noLeader := ps.normal.no_leader begins
  have unfolded : replacePathPrefix path old new =
      if samePath path old then new
      else if lexicallyRelative path old = [] then path
      else lexicallyNormal (pathAppend new (lexicallyRelative path old)) := by
    rw [replacePathPrefix, show lexicallyNormal path = path from p,
      show lexicallyNormal old = old from o, show lexicallyNormal new = new from n]
    rw [inside, if_neg (Bool.false_ne_true ∘ Eq.symm)]
  by_cases same : path = old
  · have none_ : rest = [] := by
      rw [same] at below
      exact append_cancel_left (below.symm.trans (append_nil _).symm)
    have whole : replacePathPrefix path old new = new := by
      rw [unfolded, if_pos ((samePath_iff ps os).mpr same)]
    rw [whole, none_, append_nil]
    exact ⟨n, rfl, rfl, fun some_ => absurd rfl some_, fun _ => rfl⟩
  · have relative : ∃ directory, Spelled (lexicallyRelative path old) false rest directory ∧
        (rest ≠ [] → directory = pd) := by
      rw [lexicallyRelative_spelled ps os]
      have normal : NormalNames false rest := NormalNames.nil.append plain noLeader
      by_cases none_ : rest = []
      · subst none_
        exact ⟨false, ⟨normal, rfl, fun dir => absurd dir Bool.false_ne_true⟩,
          fun some_ => absurd rfl some_⟩
      · have parts : normalParts false rest pd = rest ++ if pd then [[]] else [] := by
          rw [normalParts, if_neg none_, if_neg Bool.false_ne_true, nil_append]
        rw [if_neg none_, ← parts]
        refine ⟨pd, ⟨normal, splitOn_normalParts normal, fun dir => ⟨none_, ?_⟩⟩, fun _ => rfl⟩
        have last := (ps.ends dir).2
        rwa [getLast?_append_of_ne_nil _ none_] at last
    obtain ⟨rd, rs, kind⟩ := relative
    have free := rs.isRooted_eq
    have named := rs.pathNames_eq
    obtain ⟨nd, ns, ends⟩ := spelled_append n free rs.ne_nil (named ▸ plain) (named ▸ noLeader)
    rw [named] at ns ends
    rw [unfolded, if_neg (mt (samePath_iff ps os).mp same), if_neg rs.ne_nil]
    refine ⟨ns.isNormal, ns.isRooted_eq, ns.pathNames_eq, fun some_ => ?_, fun eq => absurd eq same⟩
    have first : pathNames new ++ rest ≠ [] := append_ne_nil_of_right_ne_nil _ some_
    have second : on ++ rest ≠ [] := append_ne_nil_of_right_ne_nil _ some_
    rw [ns.getLast?_iff, ps.getLast?_iff, or_iff_left fun none_ => first none_.1,
      or_iff_left fun none_ => second none_.1, ends some_, ← kind some_]
    exact rs.lastPart_iff some_

/-! ### The shortcuts together -/

/-- The prefix of a path replaced, component by component. -/
structure ComponentReplaced (path old new result : PathText) : Prop where
  outside : ¬ComponentWithin path old → result = path
  whole : path = old → path ≠ [] → result = new
  within : ComponentWithin path old → ∀ rest, pathNames path = pathNames old ++ rest →
    IsNormal result ∧ isRooted result = isRooted new ∧ pathNames result = pathNames new ++ rest ∧
      (rest ≠ [] → (result.getLast? = some slash ↔ path.getLast? = some slash))

/-- **The text shortcuts** against `lexically_normal`, containment by components,
`lexically_relative` and replacement by components. -/
theorem pathTextShortcuts :
    (∀ text, pathTextNeedsNormalizing text = false → lexicallyNormal text = text) ∧
      (∀ candidate root, IsNormal candidate → IsNormal root → ¬ClimbsOn candidate root →
        (normalizedPathTextEqualsOrWithin candidate root = true ↔ ComponentWithin candidate root)) ∧
      (∀ candidate root, IsNormal candidate → IsNormal root →
        normalizedPathTextEqualsOrWithin candidate root = true →
          normalizedRelativeView candidate root =
            if lexicallyRelative candidate root = dotName then []
            else lexicallyRelative candidate root) ∧
      ∀ path old new, IsNormal path → IsNormal old → IsNormal new → ¬ClimbsOn path old →
        ComponentReplaced path old new (replacePathPrefix path old new) := by
  refine ⟨fun text => lexicallyNormal_of_scan, fun candidate root c r => within_iff c r, ?_, ?_⟩
  · intro candidate root c r within
    have some_ : candidate ≠ [] ∧ root ≠ [] := by
      by_contra none_
      rw [normalizedPathTextEqualsOrWithin, if_pos (by tauto)] at within
      exact Bool.false_ne_true within
    obtain ⟨cn, cd, cs⟩ := c.spelled some_.1
    obtain ⟨rn, rd, rs⟩ := r.spelled some_.2
    exact relativeView_spelled cs rs within
  · intro path old new p o n stays
    refine ⟨replacePathPrefix_outside p o stays, ?_, ?_⟩
    · rintro rfl some_
      have inside : ComponentWithin path path :=
        ⟨⟨some_, some_⟩, rfl, [], (append_nil _).symm, (Option.some_ne_none _).symm⟩
      exact (replacePathPrefix_within p o n stays inside (append_nil _).symm).2.2.2.2 rfl
    · intro within rest below
      obtain ⟨normal, rooted, names, ends, -⟩ := replacePathPrefix_within p o n stays within below
      exact ⟨normal, rooted, names, ends⟩

/-- `/a/b` where `/a` becomes `/x`. -/
theorem pathTextShortcuts_renamed :
    pathNames (replacePathPrefix [0x2F, 0x61, 0x2F, 0x62] [0x2F, 0x61] [0x2F, 0x78]) =
      [[0x78], [0x62]] :=
  ((pathTextShortcuts.2.2.2 [0x2F, 0x61, 0x2F, 0x62] [0x2F, 0x61] [0x2F, 0x78] (by decide)
    (by decide) (by decide)
    (fun climbs => climbs.2.elim fun rest cut => absurd (append_cancel_left
      ((show pathNames [0x2F, 0x61] ++ [[0x62]] = _ by decide).trans cut))
      (fun same => absurd (List.cons.inj same).1 (by decide)))).within
    ⟨by decide, by decide, [[0x62]], by decide, by decide⟩ [[0x62]] (by decide)).2.2.1

/-- The view of a path at its root is empty and not `.`, and a root of `..` leaders takes in what is
above it: `../..` is within `..`, and moves with it. -/
theorem pathTextShortcuts_climbing :
    ¬(∀ candidate root, IsNormal candidate → IsNormal root →
        normalizedRelativeView candidate root = lexicallyRelative candidate root) ∧
      ¬(∀ candidate root, IsNormal candidate → IsNormal root →
        (normalizedPathTextEqualsOrWithin candidate root = true ↔ ComponentWithin candidate root)) ∧
      ¬∀ path old new, IsNormal path → IsNormal old → IsNormal new →
        ComponentReplaced path old new (replacePathPrefix path old new) := by
  have above : ¬ComponentWithin [0x2E, 0x2E, 0x2F, 0x2E, 0x2E] [0x2E, 0x2E] := by
    rintro ⟨-, -, rest, cut, climbs⟩
    refine climbs ?_
    rw [← append_cancel_left
      ((show pathNames [0x2E, 0x2E] ++ [dotDotName] = _ by decide).trans cut)]
    rfl
  refine ⟨fun all => ?_, fun all => ?_, fun all => ?_⟩
  · exact absurd (all [0x2F, 0x61] [0x2F, 0x61] (by decide) (by decide)) (by decide)
  · exact above ((all [0x2E, 0x2E, 0x2F, 0x2E, 0x2E] [0x2E, 0x2E] (by decide) (by decide)).mp
      (by decide))
  · have moved := (all [0x2E, 0x2E, 0x2F, 0x2E, 0x2E] [0x2E, 0x2E] [0x2F, 0x78] (by decide)
      (by decide) (by decide)).outside above
    exact absurd moved (by decide)

end Replacement

end Microide.Util
