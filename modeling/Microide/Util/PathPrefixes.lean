/-
Containment of normal paths by their texts.

The checks that run for every entry of a walk compare two texts and look at the byte behind the root's.
What they answer about is components: those of the root are the first of the candidate's, and what
follows does not climb. `std::filesystem::path` is modelled on POSIX texts: the root directory, the
names, and an empty component behind a separator at the end.

**Main results.** `within_spelled`: what the text compare answers of two normal paths;
`relativeView_spelled`: the view is `lexically_relative`'s text.
-/

import Microide.Util.NormalPaths

namespace Microide.Util

open List Bool

/-! ### Components -/

/-- The components `path` iterates over. -/
def pathComponents (text : PathText) : List PathText :=
  let names := (text.splitOn slash).filter (· ≠ [])
  (if isRooted text then [[slash]] else []) ++ names ++
    if text.getLast? = some slash ∧ names ≠ [] then [[]] else []

/-- `a /= b`. -/
def pathAppend (a b : PathText) : PathText :=
  if isRooted b then b
  else (if a ≠ [] ∧ a.getLast? ≠ some slash then a ++ [slash] else a) ++ b

/-- What is left of two lists behind their common front. -/
def dropCommon : List PathText → List PathText → List PathText × List PathText
  | a :: as, b :: bs => if a = b then dropCommon as bs else (a :: as, b :: bs)
  | as, bs => (as, bs)

/-- The steps up that leave the components. -/
def stepsUp (components : List PathText) : Int :=
  components.foldl
    (fun steps name =>
      if name = dotDotName then steps - 1 else if isRealName name then steps + 1 else steps)
    0

/-- The relative path, by the components that are left of the path and of the base. -/
def relativeOf (left : List PathText × List PathText) : PathText :=
  if left.1 = [] ∧ left.2 = [] then dotName
  else
    let steps := stepsUp left.2
    if steps = 0 ∧ (left.1 = [] ∨ left.1.head? = some []) then dotName
    else if 0 ≤ steps then (List.replicate steps.toNat dotDotName ++ left.1).foldl pathAppend []
    else []

/-- `path.lexically_relative(base)`. -/
def lexicallyRelative (text base : PathText) : PathText :=
  if isRooted text ≠ isRooted base then []
  else relativeOf (dropCommon (pathComponents text) (pathComponents base))

/-! ### The checks -/

def dropTrailingSeparator (text : PathText) : PathText :=
  if 1 < text.length ∧ text.getLast? = some slash then text.dropLast else text

def normalizedPathTextEqualsOrWithin (candidate root : PathText) : Bool :=
  if candidate = [] ∨ root = [] then false
  else
    let candidate := dropTrailingSeparator candidate
    let root := dropTrailingSeparator root
    if candidate = root then true
    else if root = dotName then
      if isRooted candidate then false
      else !(dotDotName.isPrefixOf candidate &&
        (candidate.length = 2 || candidate[2]? = some slash))
    else if candidate.length ≤ root.length || !root.isPrefixOf candidate then false
    else root.getLast? = some slash || candidate[root.length]? = some slash

def normalizedRelativeView (candidate root : PathText) : PathText :=
  if root = [] ∨ candidate = root then []
  else if root = dotName then candidate
  else
    let offset := if root.getLast? = some slash then root.length else root.length + 1
    if candidate.length ≤ offset then [] else candidate.drop offset

/-- `operator==` of paths. -/
def samePath (a b : PathText) : Bool := pathComponents a = pathComponents b

/-- `parent_path` of what names a directory by a separator at its end. -/
def parentOfDirectory (path : PathText) : PathText :=
  if (path.splitOn slash).any (· ≠ []) ∧ path.getLast? = some slash then path.dropLast else path

def pathEqualsOrWithin (candidate root : PathText) : Bool :=
  if candidate = [] ∨ root = [] then false
  else if samePath candidate root then true
  else
    let candidate := lexicallyNormal candidate
    let root := lexicallyNormal root
    if candidate = [] ∨ root = [] then false
    else
      let candidate := parentOfDirectory candidate
      let root := parentOfDirectory root
      if samePath candidate root then true
      else
        let relative := lexicallyRelative candidate root
        if relative = [] then false
        else relative ≠ dotName && relative ≠ dotDotName &&
          !(dotDotName ++ [slash]).isPrefixOf relative

def replacePathPrefix (path old new : PathText) : PathText :=
  let path := lexicallyNormal path
  let old := lexicallyNormal old
  let new := lexicallyNormal new
  if normalizedPathTextEqualsOrWithin path old = false then path
  else if samePath path old then new
  else
    let relative := lexicallyRelative path old
    if relative = [] then path else lexicallyNormal (pathAppend new relative)

/-- The candidate is at the root or below it, component by component. Empty paths are nowhere. -/
structure ComponentWithin (candidate root : PathText) : Prop where
  spelled : candidate ≠ [] ∧ root ≠ []
  rooted : isRooted candidate = isRooted root
  below : ∃ rest, pathNames candidate = pathNames root ++ rest ∧ rest.head? ≠ some dotDotName

/-! ### Texts and their parts -/

theorem pathNames_append (a b : PathText) :
    pathNames (a ++ slash :: b) = pathNames a ++ pathNames b := by
  rw [pathNames, splitOn_append_cons_self, filter_append]
  rfl

theorem getLast?_of_parts {text last : PathText} {init : List PathText}
    (parts : text.splitOn slash = init ++ [last]) :
    text.getLast? = some slash ↔ last = [] ∧ init ≠ [] := by
  have whole : slash ∉ last := whole_of_mem_splitOn (parts ▸ mem_append_right _ (mem_singleton_self _))
  have text_ : text = List.intercalate [slash] (init ++ [last]) := by
    rw [← parts, intercalate_splitOn]
  by_cases none_ : init = []
  · subst none_
    rw [nil_append, intercalate_singleton] at text_
    subst text_
    constructor
    · exact fun ends => absurd (mem_of_getLast? ends) whole
    · exact fun ends => absurd rfl ends.2
  · rw [intercalate_append none_ (cons_ne_nil _ _), intercalate_singleton] at text_
    rw [text_]
    cases last with
    | nil => simp [none_]
    | cons c rest =>
      have other : (c :: rest).getLast? ≠ some slash :=
        fun ends => whole (mem_of_getLast? ends)
      constructor
      · intro ends
        rw [getLast?_append, getLast?_cons_cons, Option.or_eq_some_iff] at ends
        rcases ends with ends | ⟨none', -⟩
        · exact absurd ends other
        · exact absurd none' (by simp)
      · exact fun ends => absurd ends.1 (cons_ne_nil _ _)

/-- The first part of a text is a front of it that ends at a separator or with the text. -/
theorem head_part_iff {text part : PathText} (whole : slash ∉ part) :
    (text.splitOn slash).head? = some part ↔
      part <+: text ∧ (text.length = part.length ∨ text[part.length]? = some slash) := by
  constructor
  · intro head
    obtain ⟨tail, parts⟩ := head?_eq_some_iff.mp head
    have text_ : text = List.intercalate [slash] (part :: tail) := by
      rw [← parts, intercalate_splitOn]
    cases tail with
    | nil =>
      rw [intercalate_singleton] at text_
      subst text_
      exact ⟨prefix_rfl, .inl rfl⟩
    | cons next tail =>
      rw [text_]
      exact ⟨prefix_append _ _, .inr (by simp)⟩
  · rintro ⟨⟨rest, rfl⟩, ends⟩
    cases rest with
    | nil =>
      rw [append_nil, splitOn_eq_singleton whole]
      rfl
    | cons c rest =>
      rcases ends with ends | ends
      · exact absurd ends (by simp)
      · obtain rfl : c = slash := by
          rw [getElem?_append_right (Nat.le_refl _), Nat.sub_self] at ends
          exact Option.some.inj ends
        rw [splitOn_append_cons_self, splitOn_eq_singleton whole]
        rfl

namespace Spelled

variable {text : PathText} {rooted : Bool} {names : List PathText} {directory : Bool}

section

variable (spelled : Spelled text rooted names directory)

include spelled

theorem ne_nil : text ≠ [] := by
  rintro rfl
  have parts := spelled.parts
  rw [normalParts, splitOn_nil] at parts
  split at parts
  · split at parts
    · exact absurd (List.cons.inj parts).2 (cons_ne_nil _ _).symm
    · exact absurd (List.cons.inj parts).1 (by decide)
  next some_ =>
    have filled := congrArg (List.filter isRealName) parts
    have kept := @filter_normalParts _ _ directory spelled.normal
    rw [normalParts, if_neg some_] at kept
    rw [kept] at filled
    exact some_ filled.symm

/-- The text ends in a separator where it is a directory's, or the root's. -/
theorem getLast?_iff :
    text.getLast? = some slash ↔ directory = true ∨ names = [] ∧ rooted = true := by
  have parts := spelled.parts
  rw [normalParts] at parts
  split at parts
  next none_ =>
    have file : directory ≠ true := fun dir => (spelled.ends dir).1 none_
    cases rooted with
    | true =>
      rw [@getLast?_of_parts _ [] [[]] parts]
      simp [none_]
    | false =>
      rw [@getLast?_of_parts _ dotName [] parts]
      simp [file]
  next some_ =>
    cases directory with
    | true =>
      rw [@getLast?_of_parts _ [] _ parts]
      simp [some_]
    | false =>
      obtain ⟨front, last, rfl⟩ := (eq_nil_or_concat' names).resolve_left some_
      rw [if_neg Bool.false_ne_true, append_nil, ← append_assoc] at parts
      have real := (spelled.normal.plain last (by simp)).1
      have filled : last ≠ [] := (not_or.mp (isRealName_iff.mp real)).1
      rw [getLast?_of_parts parts]
      simp [filled]

/-- The text without the separator at its end. -/
theorem file :
    Spelled (List.intercalate [slash] (normalParts rooted names false)) rooted names false :=
  ⟨spelled.normal, splitOn_normalParts spelled.normal, fun dir => absurd dir Bool.false_ne_true⟩

end

theorem directory_text (spelled : Spelled text rooted names true) :
    text = List.intercalate [slash] (normalParts rooted names false) ++ [slash] := by
  have some_ := (spelled.ends rfl).1
  rw [spelled.text_eq, normalParts, if_neg some_, if_pos rfl, normalParts, if_neg some_,
    if_neg Bool.false_ne_true, append_nil,
    intercalate_append (append_ne_nil_of_right_ne_nil _ some_) (cons_ne_nil _ _),
    intercalate_singleton]

theorem dropTrailing (spelled : Spelled text rooted names directory) :
    dropTrailingSeparator text = List.intercalate [slash] (normalParts rooted names false) := by
  cases directory with
  | true =>
    have filled := spelled.file.ne_nil
    have long : 1 < text.length := by
      have := length_pos_of_ne_nil filled
      rw [spelled.directory_text, length_append, length_singleton]
      omega
    rw [dropTrailingSeparator, if_pos ⟨long, spelled.getLast?_iff.mpr (.inl rfl)⟩,
      spelled.directory_text, dropLast_concat]
  | false =>
    rw [dropTrailingSeparator, if_neg ?_, ← spelled.text_eq]
    rintro ⟨long, ends⟩
    rcases spelled.getLast?_iff.mp ends with dir | ⟨rfl, rfl⟩
    · exact Bool.false_ne_true dir
    · rw [spelled.text_eq] at long
      exact absurd long (by decide)

/-- A relative text climbs out of `.` where its first name does. -/
theorem climbs_iff {names : List PathText} {directory : Bool}
    (spelled : Spelled text false names directory) :
    (dotDotName.isPrefixOf text && (text.length = 2 || text[2]? = some slash)) = true ↔
      names.head? = some dotDotName := by
  have head := @head_part_iff text dotDotName (by decide)
  have parts : (text.splitOn slash).head? = some dotDotName ↔ names.head? = some dotDotName := by
    rw [spelled.parts, normalParts]
    cases names with
    | nil => simp [dotName, dotDotName]
    | cons name names => simp
  rw [← parts, head, and_eq_true, isPrefixOf_iff_prefix]
  simp [dotDotName]

/-- A normal path below another, by text. -/
theorem below_text {above more : List PathText}
    (below : Spelled text rooted (above ++ more) directory) (some_ : more ≠ [])
    (named : above ≠ []) :
    text = List.intercalate [slash] (normalParts rooted above false) ++ slash ::
      List.intercalate [slash] (more ++ if directory then [[]] else []) := by
  have whole : above ++ more ≠ [] := append_ne_nil_of_left_ne_nil named _
  rw [below.text_eq, normalParts, if_neg whole, normalParts, if_neg named, if_neg Bool.false_ne_true,
    append_nil, ← intercalate_append (append_ne_nil_of_right_ne_nil _ named)
      (append_ne_nil_of_left_ne_nil some_ _)]
  simp only [append_assoc]

end Spelled

/-! ### Containment -/

theorem NormalNames.head?_of_rooted {names : List PathText} (normal : NormalNames true names) :
    names.head? ≠ some dotDotName := by
  intro head
  obtain ⟨tail, rfl⟩ := head?_eq_some_iff.mp head
  exact Bool.noConfusion (normal.leaders [] tail rfl).1

theorem isRooted_append {a : PathText} (some_ : a ≠ []) (b : PathText) :
    isRooted (a ++ b) = isRooted a := by
  obtain ⟨c, rest, rfl⟩ := exists_cons_of_ne_nil some_
  rfl

section Containment

variable {candidate root : PathText} {cr rr : Bool} {cn rn : List PathText} {cd rd : Bool}

/-- What the compare answers of two normal paths. -/
theorem within_spelled (c : Spelled candidate cr cn cd) (r : Spelled root rr rn rd) :
    normalizedPathTextEqualsOrWithin candidate root = true ↔
      cr = rr ∧ ∃ rest, cn = rn ++ rest ∧ (rn = [] → rest.head? ≠ some dotDotName) := by
  rw [normalizedPathTextEqualsOrWithin, if_neg (not_or.mpr ⟨c.ne_nil, r.ne_nil⟩)]
  dsimp only
  rw [c.dropTrailing, r.dropTrailing]
  replace c := c.file
  replace r := r.file
  generalize List.intercalate [slash] (normalParts cr cn false) = candidate at c ⊢
  generalize List.intercalate [slash] (normalParts rr rn false) = root at r ⊢
  split
  next same =>
    subst same
    refine ⟨fun _ => ⟨c.isRooted_eq.symm.trans r.isRooted_eq, [], ?_, fun _ => ?_⟩, fun _ => rfl⟩
    · rw [append_nil, ← c.pathNames_eq, r.pathNames_eq]
    · exact (Option.some_ne_none _).symm
  next apart =>
    have more {rest : List PathText} (cut : cn = rn ++ rest) (same : cr = rr) : rest ≠ [] := by
      rintro rfl
      subst same
      rw [append_nil] at cut
      exact apart (c.text_eq.trans (by rw [cut, ← r.text_eq]))
    split
    next dot =>
      subst dot
      obtain rfl : false = rr := r.isRooted_eq
      obtain rfl : [] = rn := r.pathNames_eq
      rw [c.isRooted_eq]
      cases cr with
      | true => exact iff_of_false Bool.false_ne_true fun same => Bool.noConfusion same.1
      | false =>
        rw [if_neg Bool.false_ne_true, not_eq_true', eq_false_iff, ne_eq, c.climbs_iff]
        refine ⟨fun stays => ⟨rfl, cn, rfl, fun _ => stays⟩, ?_⟩
        rintro ⟨-, rest, rfl, stays⟩
        exact stays rfl
    next notDot =>
      have named (root_ : rr = false) : rn ≠ [] := by
        rintro rfl
        subst root_
        exact notDot (r.text_eq.trans rfl)
      have compare : (if candidate.length ≤ root.length || !root.isPrefixOf candidate then false
          else root.getLast? = some slash || candidate[root.length]? = some slash) = true ↔
            root.length < candidate.length ∧ root <+: candidate ∧
              (root.getLast? = some slash ∨ candidate[root.length]? = some slash) := by
        rw [← isPrefixOf_iff_prefix]
        by_cases long : candidate.length ≤ root.length
        · simp [Nat.not_lt.mpr long]
        · cases front : root.isPrefixOf candidate <;> simp
      rw [compare]
      constructor
      · rintro ⟨-, ⟨tail, rfl⟩, ends⟩
        have rooted : cr = rr := by
          rw [← c.isRooted_eq, isRooted_append r.ne_nil, r.isRooted_eq]
        by_cases slashed : root.getLast? = some slash
        · rcases r.getLast?_iff.mp slashed with dir | ⟨rfl, rfl⟩
          · exact absurd dir Bool.false_ne_true
          · subst rooted
            exact ⟨rfl, cn, rfl, fun _ => c.normal.head?_of_rooted⟩
        · have next := ends.resolve_left slashed
          rw [getElem?_append_right (Nat.le_refl _), Nat.sub_self] at next
          obtain ⟨b, rfl⟩ := head?_eq_some_iff.mp ((head?_eq_getElem? ..).trans next)
          refine ⟨rooted, pathNames b, ?_, fun none_ => ?_⟩
          · rw [← c.pathNames_eq, pathNames_append, r.pathNames_eq]
          · cases rr with
            | false => exact absurd none_ (named rfl)
            | true => exact absurd (r.getLast?_iff.mpr (.inr ⟨none_, rfl⟩)) slashed
      · rintro ⟨rfl, rest, rfl, -⟩
        have some_ := more rfl rfl
        by_cases none_ : rn = []
        · cases cr with
          | false => exact absurd none_ (named rfl)
          | true =>
            subst none_
            obtain rfl : root = [slash] := r.text_eq
            have starts := c.isRooted_eq
            rw [isRooted, decide_eq_true_eq] at starts
            obtain ⟨tail, rfl⟩ := head?_eq_some_iff.mp starts
            have filled : tail ≠ [] := fun none_ => apart (none_ ▸ rfl)
            have := length_pos_of_ne_nil filled
            exact ⟨by simpa using this, ⟨tail, rfl⟩, .inl rfl⟩
        · have text := c.below_text some_ none_
          rw [← r.text_eq] at text
          rw [text]
          refine ⟨?_, prefix_append _ _, .inr ?_⟩
          · rw [length_append, length_cons]
            omega
          · rw [getElem?_append_right (Nat.le_refl _), Nat.sub_self]
            rfl

/-! ### Relative texts -/

theorem Spelled.components (c : Spelled candidate cr cn cd) :
    pathComponents candidate = (if cr then [[slash]] else []) ++
      (if cr = false ∧ cn = [] then [dotName] else cn) ++ if cd then [[]] else [] := by
  have filled : cn.filter (fun name => decide (name ≠ [])) = cn := by
    refine filter_eq_self.mpr fun name mem => decide_eq_true ?_
    exact (not_or.mp (isRealName_iff.mp (c.normal.plain name mem).1)).1
  have names : (candidate.splitOn slash).filter (fun name => decide (name ≠ [])) =
      if cr = false ∧ cn = [] then [dotName] else cn := by
    rw [c.parts, normalParts]
    by_cases none_ : cn = []
    · cases cr with
      | true => simp [none_]
      | false => simp [none_, dotName]
    · have kept : (if cr = false ∧ cn = [] then [dotName] else cn) = cn :=
        if_neg fun both => none_ both.2
      rw [if_neg none_, kept, filter_append, filter_append, filled]
      cases cr <;> cases cd <;> simp
  rw [pathComponents, names, c.isRooted_eq]
  have ends := c.getLast?_iff
  cases cd with
  | true => simp [ends, (c.ends rfl).1]
  | false => by_cases none_ : cn = [] <;> cases cr <;> simp [ends]

theorem dropCommon_append (front a b : List PathText) :
    dropCommon (front ++ a) (front ++ b) = dropCommon a b := by
  induction front with
  | nil => rfl
  | cons name front ih => rw [cons_append, cons_append, dropCommon, if_pos rfl, ih]

/-- Names put behind a path one by one. -/
theorem foldl_pathAppend {names : List PathText} (directory : Bool)
    (plain : ∀ name ∈ names, isRealName name = true ∧ slash ∉ name) {front : PathText}
    (some_ : front ≠ []) (ends : front.getLast? ≠ some slash) :
    (names ++ if directory then [[]] else []).foldl pathAppend front =
      List.intercalate [slash] (front :: (names ++ if directory then [[]] else [])) := by
  induction names generalizing front with
  | nil =>
    cases directory with
    | false => simp
    | true =>
      rw [nil_append, if_pos rfl, foldl_cons, foldl_nil, pathAppend,
        if_neg (by decide), if_pos ⟨some_, ends⟩,
        intercalate_cons_of_ne_nil (cons_ne_nil _ _), intercalate_singleton]
  | cons name names ih =>
    obtain ⟨real, whole⟩ := plain name mem_cons_self
    have filled : name ≠ [] := (not_or.mp (isRealName_iff.mp real)).1
    have rooted : isRooted name = false := by
      rw [isRooted, decide_eq_false_iff_not]
      exact fun head => whole (mem_of_head? head)
    rw [cons_append, foldl_cons, pathAppend, rooted, if_neg Bool.false_ne_true,
      if_pos ⟨some_, ends⟩, ih (fun other mem => plain other (mem_cons_of_mem _ mem))
        (append_ne_nil_of_right_ne_nil _ filled) ?_,
      @intercalate_cons_of_ne_nil _ _ _ (name :: _) (cons_ne_nil _ _)]
    · cases tail : names ++ if directory then [[]] else [] with
      | nil => rw [intercalate_singleton, intercalate_singleton]
      | cons other more =>
        rw [intercalate_cons_of_ne_nil (cons_ne_nil _ _),
          intercalate_cons_of_ne_nil (cons_ne_nil _ _)]
        simp only [append_assoc]
    · rw [getLast?_append_of_ne_nil _ filled]
      exact fun last => whole (mem_of_getLast? last)

/-- Names that are left where nothing of the base is to be left. -/
theorem relative_names {name : PathText} {names left : List PathText} {directory : Bool}
    (plain : ∀ other ∈ name :: names, isRealName other = true ∧ slash ∉ other)
    (level : stepsUp left = 0) :
    relativeOf (name :: (names ++ if directory then [[]] else []), left) =
      List.intercalate [slash] (name :: (names ++ if directory then [[]] else [])) := by
  obtain ⟨real, whole⟩ := plain name mem_cons_self
  have filled : name ≠ [] := (not_or.mp (isRealName_iff.mp real)).1
  have rooted : isRooted name = false := by
    rw [isRooted, decide_eq_false_iff_not]
    exact fun head => whole (mem_of_head? head)
  rw [relativeOf, if_neg fun both => cons_ne_nil _ _ both.1, level, if_neg ?_, if_pos (Int.le_refl 0),
    Int.toNat_zero, replicate_zero, nil_append, foldl_cons, pathAppend, rooted,
    if_neg Bool.false_ne_true, if_neg fun both => both.1 rfl, nil_append]
  · exact foldl_pathAppend directory (fun other mem => plain other (mem_cons_of_mem _ mem))
      filled fun last => whole (mem_of_getLast? last)
  · rintro ⟨-, none_ | head⟩
    · exact cons_ne_nil _ _ none_
    · exact filled (Option.some.inj head)

/-- `lexically_relative` of a path below another: the names behind the other's, or `.`. -/
theorem lexicallyRelative_spelled {rest : List PathText} (c : Spelled candidate rr (rn ++ rest) cd)
    (r : Spelled root rr rn rd) : lexicallyRelative candidate root = if rest = [] then dotName
      else List.intercalate [slash] (rest ++ if cd then [[]] else []) := by
  have plain : ∀ other ∈ rest, isRealName other = true ∧ slash ∉ other :=
    fun other mem => c.normal.plain other (mem_append_right _ mem)
  rw [lexicallyRelative, c.isRooted_eq, r.isRooted_eq, if_neg (not_not.mpr rfl), c.components,
    r.components]
  by_cases dot : rr = false ∧ rn = []
  · obtain ⟨rfl, rfl⟩ := dot
    have file : rd = false := eq_false_iff.mpr fun dir => (r.ends dir).1 rfl
    subst file
    cases rest with
    | nil =>
      have file : cd = false := eq_false_iff.mpr fun dir => (c.ends dir).1 rfl
      subst file
      rfl
    | cons name more =>
      have apart : name ≠ dotName :=
        (not_or.mp (isRealName_iff.mp (plain name mem_cons_self).1)).2
      have common : dropCommon (name :: (more ++ if cd then [[]] else [])) [dotName] =
          (name :: (more ++ if cd then [[]] else []), [dotName]) := by
        rw [dropCommon, if_neg apart]
      have below : (if false = false ∧ [] ++ name :: more = [] then [dotName]
          else [] ++ name :: more) = name :: more := if_neg fun both => cons_ne_nil _ _ both.2
      have dot : (if false = false ∧ ([] : List PathText) = [] then [dotName] else []) = [dotName] :=
        if_pos ⟨rfl, rfl⟩
      have free : (if false = true then [[slash]] else []) = [] := if_neg Bool.false_ne_true
      have file : (if false = true then [[]] else ([] : List PathText)) = [] :=
        if_neg Bool.false_ne_true
      rw [below, dot, free, file, nil_append, nil_append, append_nil, cons_append, common]
      exact relative_names plain rfl
  · have base : (if rr = false ∧ rn = [] then [dotName] else rn) = rn := if_neg dot
    have below : (if rr = false ∧ rn ++ rest = [] then [dotName] else rn ++ rest) = rn ++ rest :=
      if_neg fun both => dot ⟨both.1, (append_eq_nil_iff.mp both.2).1⟩
    rw [base, below, ← append_assoc, append_assoc _ rest, dropCommon_append]
    cases rest with
    | nil => cases cd <;> cases rd <;> rfl
    | cons name more =>
      have filled : name ≠ [] :=
        (not_or.mp (isRealName_iff.mp (plain name mem_cons_self).1)).1
      have common : dropCommon (name :: (more ++ if cd then [[]] else [])) (if rd then [[]] else []) =
          (name :: (more ++ if cd then [[]] else []), if rd then [[]] else []) := by
        cases rd with
        | false => rfl
        | true => rw [if_pos rfl, dropCommon, if_neg filled]
      have level : stepsUp (if rd then [[]] else []) = 0 := by cases rd <;> rfl
      rw [cons_append, common]
      exact relative_names plain level

theorem relative_eq_dot_iff {rest : List PathText} (c : Spelled candidate rr (rn ++ rest) cd) :
    (if rest = [] then dotName else List.intercalate [slash] (rest ++ if cd then [[]] else [])) =
      dotName ↔ rest = [] := by
  refine ⟨fun dot => by_contra fun some_ => ?_, fun none_ => if_pos none_⟩
  obtain ⟨name, more, rfl⟩ := exists_cons_of_ne_nil some_
  rw [if_neg some_] at dot
  have whole : ∀ part ∈ name :: more ++ (if cd then [[]] else []), slash ∉ part := by
    intro part mem
    rcases mem_append.mp mem with mem | mem
    · exact (c.normal.plain part (mem_append_right _ mem)).2
    · split at mem
      · exact mem_singleton.mp mem ▸ not_mem_nil
      · exact absurd mem not_mem_nil
  have parts := splitOn_intercalate slash whole (append_ne_nil_of_left_ne_nil (cons_ne_nil _ _) _)
  rw [dot, show dotName.splitOn slash = [dotName] by decide] at parts
  have real := (c.normal.plain name (mem_append_right _ mem_cons_self)).1
  exact (not_or.mp (isRealName_iff.mp real)).2 (List.cons.inj parts).1.symm

theorem drop_offset (text : PathText) (offset : Nat) :
    (if text.length ≤ offset then [] else text.drop offset) = text.drop offset := by
  split
  next short =>
    exact (drop_eq_nil_of_le short).symm
  · rfl

/-- The bytes of a root that a path below it drops. -/
theorem offset_spelled (r : Spelled root rr rn rd) (named : rn ≠ []) :
    (if root.getLast? = some slash then root.length else root.length + 1) =
      (List.intercalate [slash] (normalParts rr rn false)).length + 1 := by
  have ends := r.getLast?_iff
  cases rd with
  | true => rw [if_pos (ends.mpr (.inl rfl)), r.directory_text, length_append, length_singleton]
  | false =>
    rw [if_neg ?_, r.text_eq]
    intro slashed
    rcases ends.mp slashed with dir | ⟨none_, -⟩
    · exact Bool.false_ne_true dir
    · exact named none_

/-- The view of a contained path is `lexically_relative`'s text, and empty where that is `.`. -/
theorem relativeView_spelled (c : Spelled candidate cr cn cd) (r : Spelled root rr rn rd)
    (within : normalizedPathTextEqualsOrWithin candidate root = true) :
    normalizedRelativeView candidate root =
      if lexicallyRelative candidate root = dotName then []
      else lexicallyRelative candidate root := by
  obtain ⟨rfl, rest, rfl, -⟩ := (within_spelled c r).mp within
  rw [lexicallyRelative_spelled c r, normalizedRelativeView]
  have dot := relative_eq_dot_iff c
  by_cases same : candidate = root
  · have none_ : rest = [] := by
      have names := c.pathNames_eq
      rw [same, r.pathNames_eq] at names
      exact append_cancel_left (names.symm.trans (append_nil rn).symm)
    rw [if_pos (.inr same), if_pos (dot.mpr none_)]
  · rw [if_neg (not_or.mpr ⟨r.ne_nil, same⟩)]
    by_cases none_ : rest = []
    · subst none_
      rw [append_nil] at c
      rw [if_pos (dot.mpr rfl), drop_offset]
      -- The texts differ in the separator at their ends.
      have named : rn ≠ [] := by
        intro none_
        have first : cd = false := eq_false_iff.mpr fun dir => (c.ends dir).1 none_
        have second : rd = false := eq_false_iff.mpr fun dir => (r.ends dir).1 none_
        rw [c.text_eq, r.text_eq, first, second] at same
        exact same rfl
      have notDot : root ≠ dotName := by
        rintro rfl
        exact named (r.pathNames_eq.symm.trans rfl)
      rw [if_neg notDot, offset_spelled r named, drop_eq_nil_of_le]
      cases cd with
      | true =>
        rw [c.directory_text, length_append, length_singleton]
      | false =>
        rw [c.text_eq]
        exact Nat.le_succ _
    · rw [if_neg (mt dot.mp none_), if_neg none_]
      split
      next isDot =>
        subst isDot
        obtain rfl : false = cr := r.isRooted_eq
        obtain rfl : [] = rn := r.pathNames_eq
        rw [c.text_eq, normalParts, nil_append, if_neg none_]
        rfl
      next notDot =>
        rw [drop_offset]
        by_cases named : rn = []
        · subst named
          cases cr with
          | false =>
            exact absurd (r.text_eq.trans (by rfl)) notDot
          | true =>
            have root_ : root = [slash] := r.text_eq.trans (by rfl)
            rw [root_, c.text_eq, normalParts, nil_append, if_neg none_, if_pos rfl,
              append_assoc, singleton_append,
              intercalate_cons_of_ne_nil (append_ne_nil_of_left_ne_nil none_ _)]
            rfl
        · rw [offset_spelled r named, c.below_text none_ named, ← drop_drop, drop_left]
          rfl

end Containment

end Microide.Util
