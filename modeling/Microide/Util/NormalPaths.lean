/-
The form of a normal path.

A text is its names between separators. A normal path is rooted or not, then `..` leaders (none when it
is rooted), then plain names, and may end in a separator; with no names at all it is `/` or `.`.

**Main results.** `lexicallyNormal_spelled`: `lexically_normal` makes such a text;
`lexicallyNormal_parts`: it leaves the names of one alone; `lexicallyNormal_of_scan`: the scan tells a
normal text.
-/

import Microide.Lib.Separated
import Microide.Util.PathMatch

namespace Microide.Util

open List

/-- The text starts at the root directory. -/
def isRooted (text : PathText) : Bool := text.head? = some slash

/-- A name that is neither empty nor `.`. -/
def isRealName (name : PathText) : Bool := name ≠ [] && name ≠ dotName

/-- The names of a text that say something. -/
def pathNames (text : PathText) : List PathText := (text.splitOn slash).filter isRealName

/-- Names of a normal path. -/
structure NormalNames (rooted : Bool) (names : List PathText) : Prop where
  plain : ∀ name ∈ names, isRealName name = true ∧ slash ∉ name
  leaders : ∀ front tail, names = front ++ dotDotName :: tail →
    rooted = false ∧ ∀ name ∈ front, name = dotDotName

/-- The separated names of a normal path. -/
def normalParts (rooted : Bool) (names : List PathText) (directory : Bool) : List PathText :=
  if names = [] then if rooted then [[], []] else [dotName]
  else (if rooted then [[]] else []) ++ names ++ if directory then [[]] else []

/-- How a normal text is spelled. -/
structure Spelled (text : PathText) (rooted : Bool) (names : List PathText) (directory : Bool) :
    Prop where
  normal : NormalNames rooted names
  parts : text.splitOn slash = normalParts rooted names directory
  ends : directory = true → names ≠ [] ∧ names.getLast? ≠ some dotDotName

def IsNormal (text : PathText) : Prop := lexicallyNormal text = text

instance (text : PathText) : Decidable (IsNormal text) := inferInstanceAs (Decidable (_ = _))

/-! ### Names kept -/

theorem isRealName_iff {name : PathText} :
    isRealName name = true ↔ ¬(name = [] ∨ name = dotName) := by
  simp [isRealName]

namespace NormalNames

variable {rooted : Bool} {names more : List PathText} {name : PathText}

theorem nil : NormalNames rooted [] :=
  ⟨fun _ mem => absurd mem not_mem_nil,
    fun _ _ cut => absurd cut.symm (append_ne_nil_of_right_ne_nil _ (cons_ne_nil _ _))⟩

theorem of_leaders (leaders : ∀ name ∈ names, name = dotDotName) : NormalNames false names := by
  constructor
  · intro name mem
    rw [leaders name mem]
    exact ⟨by decide, by decide⟩
  · rintro front tail rfl
    exact ⟨rfl, fun name mem => leaders name (mem_append_left _ mem)⟩

theorem of_append (normal : NormalNames rooted (names ++ more)) : NormalNames rooted names := by
  refine ⟨fun name mem => normal.plain name (mem_append_left _ mem), fun front tail cut => ?_⟩
  exact normal.leaders front (tail ++ more) (by rw [cut, append_assoc, cons_append])

/-- Plain names more. -/
theorem append (normal : NormalNames rooted names)
    (plain : ∀ name ∈ more, isRealName name = true ∧ slash ∉ name) (noLeader : dotDotName ∉ more) :
    NormalNames rooted (names ++ more) := by
  constructor
  · intro name mem
    rcases mem_append.mp mem with mem | mem
    · exact normal.plain name mem
    · exact plain name mem
  · intro front tail cut
    rcases append_eq_append_iff.mp cut with ⟨part, -, inner⟩ | ⟨part, same, inner⟩
    · exact absurd (inner ▸ mem_append_right _ mem_cons_self) noLeader
    · cases part with
      | nil =>
        rw [nil_append] at inner
        exact absurd (inner ▸ mem_cons_self) noLeader
      | cons first part =>
        obtain ⟨rfl, -⟩ := List.cons.inj inner
        exact normal.leaders front part same

/-- Names behind that do not begin with `..` have none. -/
theorem no_leader (normal : NormalNames rooted (names ++ more))
    (begins : more.head? ≠ some dotDotName) : dotDotName ∉ more := by
  intro mem
  obtain ⟨front, tail, rfl⟩ := append_of_mem mem
  have leaders := (normal.leaders (names ++ front) tail (by rw [append_assoc])).2
  cases front with
  | nil => exact begins rfl
  | cons first front =>
    refine begins (congrArg some (leaders first ?_))
    exact mem_append_right _ mem_cons_self

end NormalNames

/-- The names kept of any list of names are a normal path's. -/
theorem normalStep_normal {rooted : Bool} {kept : List PathText} {name : PathText}
    (normal : NormalNames rooted kept.reverse) (whole : slash ∉ name) :
    NormalNames rooted (normalStep rooted kept name).reverse := by
  rw [normalStep.eq_def]
  split
  · exact normal
  next real =>
    split
    · split
      · cases rooted with
        | true => exact .nil
        | false => exact .of_leaders fun name mem => mem_singleton.mp mem
      next last rest =>
        rw [reverse_cons] at normal
        split
        next leader =>
          subst leader
          obtain ⟨free, leaders⟩ := normal.leaders rest.reverse [] rfl
          subst free
          refine .of_leaders fun name mem => ?_
          rw [reverse_cons, reverse_cons] at mem
          rcases mem_append.mp mem with mem | mem
          · rcases mem_append.mp mem with mem | mem
            · exact leaders name mem
            · exact mem_singleton.mp mem
          · exact mem_singleton.mp mem
        · exact normal.of_append
    next plain =>
      rw [reverse_cons]
      refine normal.append (fun other mem => ?_) fun mem => plain (mem_singleton.mp mem).symm
      obtain rfl := mem_singleton.mp mem
      exact ⟨isRealName_iff.mpr real, whole⟩

theorem foldl_normalStep_normal {rooted : Bool} {kept names : List PathText}
    (normal : NormalNames rooted kept.reverse) (whole : ∀ name ∈ names, slash ∉ name) :
    NormalNames rooted (names.foldl (normalStep rooted) kept).reverse := by
  induction names generalizing kept with
  | nil => exact normal
  | cons name names ih =>
    exact ih (normalStep_normal normal (whole name mem_cons_self))
      fun other mem => whole other (mem_cons_of_mem _ mem)

/-- Normal names are all kept. -/
theorem foldl_normalStep_names {rooted : Bool} {kept names : List PathText}
    (normal : NormalNames rooted (kept.reverse ++ names.filter isRealName)) :
    names.foldl (normalStep rooted) kept = (names.filter isRealName).reverse ++ kept := by
  induction names generalizing kept with
  | nil => rfl
  | cons name names ih =>
    rw [foldl_cons]
    cases real : isRealName name with
    | false =>
      rw [filter_cons_of_neg (by rw [real]; exact Bool.false_ne_true)] at normal ⊢
      have filler : normalStep rooted kept name = kept := by
        rw [normalStep.eq_def, if_pos (not_not.mp fun other => ?_)]
        exact Bool.false_ne_true (real.symm.trans (isRealName_iff.mpr other))
      rw [filler, ih normal]
    | true =>
      rw [filter_cons_of_pos real] at normal ⊢
      have pushed : normalStep rooted kept name = name :: kept := by
        rw [normalStep.eq_def, if_neg (isRealName_iff.mp real)]
        split
        next climbs =>
          subst climbs
          obtain ⟨free, leaders⟩ := normal.leaders kept.reverse _ rfl
          cases kept with
          | nil => rw [free]; rfl
          | cons last rest =>
            have leader : last = dotDotName := leaders last (by simp)
            dsimp only
            rw [if_pos leader]
        · rfl
      rw [pushed, ih (by rw [reverse_cons, append_assoc]; exact normal),
        reverse_cons, append_assoc]
      rfl

/-! ### Texts of normal names -/

theorem intercalate_append {names more : List PathText} (first : names ≠ []) (second : more ≠ []) :
    List.intercalate [slash] (names ++ more) =
      List.intercalate [slash] names ++ slash :: List.intercalate [slash] more := by
  induction names with
  | nil => exact absurd rfl first
  | cons name names ih =>
    cases names with
    | nil =>
      rw [singleton_append, intercalate_cons_of_ne_nil second, intercalate_singleton,
        append_assoc, singleton_append]
    | cons other names =>
      rw [cons_append,
        intercalate_cons_of_ne_nil (append_ne_nil_of_left_ne_nil (cons_ne_nil _ _) _),
        ih (cons_ne_nil _ _), intercalate_cons_of_ne_nil (cons_ne_nil other names)]
      simp only [append_assoc]

/-- A text is no more than its parts. -/
theorem eq_of_parts {a b : PathText} (same : a.splitOn slash = b.splitOn slash) : a = b := by
  rw [← @intercalate_splitOn _ a _ _ slash, same, intercalate_splitOn]

theorem whole_of_mem_splitOn {text name : PathText} (mem : name ∈ text.splitOn slash) :
    slash ∉ name :=
  Lib.not_mem_of_mem_splitOn slash mem

/-- The text of normal names, as `lexically_normal` puts it together. -/
theorem intercalate_normalParts {rooted : Bool} {names : List PathText} {directory : Bool}
    (normal : NormalNames rooted names) (ends : directory = true → names ≠ []) :
    List.intercalate [slash] (normalParts rooted names directory) =
      let body := List.intercalate [slash] names ++ if directory then [slash] else []
      let whole := if rooted then slash :: body else body
      if whole = [] then dotName else whole := by
  dsimp only
  cases names with
  | nil =>
    have file : directory = false := Bool.eq_false_iff.mpr fun dir => ends dir rfl
    subst file
    cases rooted with
    | true => simp [normalParts]
    | false => simp [normalParts]
  | cons name names =>
    have some_ : name :: names ≠ [] := cons_ne_nil _ _
    have body : List.intercalate [slash] (name :: names) ≠ [] := by
      have real := (normal.plain name mem_cons_self).1
      obtain ⟨c, rest, rfl⟩ := exists_cons_of_ne_nil (not_or.mp (isRealName_iff.mp real)).1
      rw [intercalate_cons_cons_left]
      exact cons_ne_nil _ _
    rw [normalParts, if_neg some_]
    have behind : List.intercalate [slash] (name :: names ++ if directory then [[]] else []) =
        List.intercalate [slash] (name :: names) ++ if directory then [slash] else [] := by
      cases directory with
      | false => simp
      | true =>
        rw [if_pos rfl, if_pos rfl, intercalate_append some_ (cons_ne_nil _ _),
          intercalate_singleton]
    cases rooted with
    | false =>
      rw [if_neg Bool.false_ne_true, if_neg Bool.false_ne_true, nil_append, behind,
        if_neg (append_ne_nil_of_left_ne_nil body _)]
    | true =>
      rw [if_pos rfl, if_pos rfl, if_neg (cons_ne_nil _ _), append_assoc,
        intercalate_append (cons_ne_nil _ _) (append_ne_nil_of_left_ne_nil some_ _), behind]
      rfl

/-- What `lexically_normal` makes of a text. -/
theorem lexicallyNormal_eq {text : PathText} (some_ : text ≠ []) : let names := text.splitOn slash
    let kept := (names.foldl (normalStep (isRooted text)) []).reverse
    let last := names.getLastD []
    lexicallyNormal text = List.intercalate [slash] (normalParts (isRooted text) kept
      (kept ≠ [] ∧ kept.getLast? ≠ some dotDotName ∧
        (last = [] ∨ last = dotName ∨ last = dotDotName))) := by
  intro names kept last
  have keptNormal : NormalNames (isRooted text) kept :=
    foldl_normalStep_normal .nil fun name mem => whole_of_mem_splitOn mem
  have unfolded : lexicallyNormal text =
      let directory : Bool := kept ≠ [] ∧ kept.getLast? ≠ some dotDotName ∧
        (last = [] ∨ last = dotName ∨ last = dotDotName)
      let body := List.intercalate [slash] kept ++ if directory then [slash] else []
      let whole := if isRooted text then slash :: body else body
      if whole = [] then dotName else whole := by
    rw [lexicallyNormal, if_neg some_]
    rfl
  rw [unfolded]
  rw [intercalate_normalParts keptNormal fun dir => (of_decide_eq_true dir).1]

theorem normalParts_ne_nil {rooted : Bool} {names : List PathText} {directory : Bool} :
    normalParts rooted names directory ≠ [] := by
  rw [normalParts]
  split
  · split
    · exact cons_ne_nil _ _
    · exact cons_ne_nil _ _
  next some_ =>
    exact append_ne_nil_of_left_ne_nil (append_ne_nil_of_right_ne_nil _ some_) _

theorem normalParts_whole {rooted : Bool} {names : List PathText} {directory : Bool}
    (normal : NormalNames rooted names) : ∀ part ∈ normalParts rooted names directory,
      slash ∉ part := by
  intro part mem
  rw [normalParts] at mem
  split at mem
  · split at mem
    · obtain rfl : part = [] := by simpa using mem
      exact not_mem_nil
    · obtain rfl := mem_singleton.mp mem
      decide
  · rcases mem_append.mp mem with mem | mem
    · rcases mem_append.mp mem with mem | mem
      · split at mem
        · obtain rfl := mem_singleton.mp mem
          exact not_mem_nil
        · exact absurd mem not_mem_nil
      · exact (normal.plain part mem).2
    · split at mem
      · obtain rfl := mem_singleton.mp mem
        exact not_mem_nil
      · exact absurd mem not_mem_nil

theorem splitOn_normalParts {rooted : Bool} {names : List PathText} {directory : Bool}
    (normal : NormalNames rooted names) :
    (List.intercalate [slash] (normalParts rooted names directory)).splitOn slash =
      normalParts rooted names directory :=
  splitOn_intercalate slash (normalParts_whole normal) normalParts_ne_nil

/-- Whether a text of several parts is rooted shows in the first. -/
theorem isRooted_of_parts {text first : PathText} {tail : List PathText}
    (parts : text.splitOn slash = first :: tail) (some_ : tail ≠ []) :
    isRooted text = decide (first = []) := by
  have whole : slash ∉ first := whole_of_mem_splitOn (parts ▸ mem_cons_self)
  rw [isRooted, ← @intercalate_splitOn _ text _ _ slash, parts, intercalate_cons_of_ne_nil some_]
  cases first with
  | nil => rfl
  | cons c rest =>
    have other : c ≠ slash := fun same => whole (same ▸ mem_cons_self)
    simp [other]

theorem isRooted_of_part {text : PathText} (parts : text.splitOn slash = [text]) :
    isRooted text = false := by
  have whole : slash ∉ text := whole_of_mem_splitOn (parts ▸ mem_cons_self)
  cases text with
  | nil => rfl
  | cons c rest =>
    have other : c ≠ slash := fun same => whole (same ▸ mem_cons_self)
    simp [isRooted, other]

theorem filter_normalParts {rooted : Bool} {names : List PathText} {directory : Bool}
    (normal : NormalNames rooted names) :
    (normalParts rooted names directory).filter isRealName = names := by
  have all : names.filter isRealName = names :=
    filter_eq_self.mpr fun name mem => (normal.plain name mem).1
  rw [normalParts]
  split
  next none_ =>
    rw [none_]
    cases rooted <;> rfl
  · rw [filter_append, filter_append, all]
    cases rooted <;> cases directory <;> simp [isRealName]

namespace Spelled

variable {text : PathText} {rooted : Bool} {names : List PathText} {directory : Bool}

section

variable (spelled : Spelled text rooted names directory)

include spelled

theorem pathNames_eq : pathNames text = names := by
  rw [pathNames, spelled.parts, filter_normalParts spelled.normal]

theorem text_eq : text = List.intercalate [slash] (normalParts rooted names directory) := by
  rw [← spelled.parts, intercalate_splitOn]

theorem isRooted_eq : isRooted text = rooted := by
  have parts := spelled.parts
  rw [normalParts] at parts
  cases rooted with
  | true =>
    split at parts
    · exact isRooted_of_parts parts (cons_ne_nil _ _)
    next some_ =>
      exact isRooted_of_parts parts (append_ne_nil_of_left_ne_nil some_ _)
  | false =>
    split at parts
    · have dot : text = dotName := by
        rw [← @intercalate_splitOn _ text _ _ slash, parts]
        rfl
      rw [dot]
      rfl
    next some_ =>
      obtain ⟨name, more, rfl⟩ := exists_cons_of_ne_nil some_
      have real := (spelled.normal.plain name mem_cons_self).1
      have filled : name ≠ [] := (not_or.mp (isRealName_iff.mp real)).1
      rw [if_neg Bool.false_ne_true, nil_append, cons_append] at parts
      cases tail : more ++ if directory then [[]] else [] with
      | nil =>
        rw [tail] at parts
        have whole : text = name := by
          rw [← @intercalate_splitOn _ text _ _ slash, parts, intercalate_singleton]
        exact isRooted_of_part (parts.trans (whole ▸ rfl))
      | cons part others =>
        rw [isRooted_of_parts parts (tail ▸ cons_ne_nil _ _)]
        exact decide_eq_false filled

end

end Spelled

/-- What `lexically_normal` makes of a text is normal. -/
theorem lexicallyNormal_spelled {text : PathText} (some_ : text ≠ []) :
    ∃ names directory, Spelled (lexicallyNormal text) (isRooted text) names directory := by
  have keptNormal := @foldl_normalStep_normal (isRooted text) [] (text.splitOn slash) .nil
    fun name mem => whole_of_mem_splitOn mem
  refine ⟨_, _, keptNormal, (congrArg (List.splitOn slash) (lexicallyNormal_eq some_)).trans
    (splitOn_normalParts keptNormal), fun dir => ?_⟩
  exact ⟨(of_decide_eq_true dir).1, (of_decide_eq_true dir).2.1⟩

theorem IsNormal.spelled {text : PathText} (normal : IsNormal text) (some_ : text ≠ []) :
    ∃ names directory, Spelled text (isRooted text) names directory := by
  have spelled := lexicallyNormal_spelled some_
  rwa [show lexicallyNormal text = text from normal] at spelled

/-- The names of a normal path are left alone, whatever fills the text between them. -/
theorem lexicallyNormal_parts {text : PathText} (some_ : text ≠ [])
    (normal : NormalNames (isRooted text) (pathNames text)) :
    let last := (text.splitOn slash).getLastD []
    lexicallyNormal text = List.intercalate [slash] (normalParts (isRooted text) (pathNames text)
      (pathNames text ≠ [] ∧ (pathNames text).getLast? ≠ some dotDotName ∧
        (last = [] ∨ last = dotName ∨ last = dotDotName))) := by
  have kept : ((text.splitOn slash).foldl (normalStep (isRooted text)) []).reverse =
      pathNames text := by
    rw [foldl_normalStep_names normal, append_nil, reverse_reverse]
    rfl
  have whole := lexicallyNormal_eq some_
  dsimp only at whole
  rwa [kept] at whole

/-- **A text that the scan clears is normal.** -/
theorem lexicallyNormal_of_scan {text : PathText} (clear : pathTextNeedsNormalizing text = false) :
    lexicallyNormal text = text := by
  by_cases some_ : text = []
  · rw [some_]
    rfl
  rw [pathTextNeedsNormalizing, if_neg some_, Bool.or_eq_false_iff] at clear
  obtain ⟨noDots, noGaps⟩ := clear
  have undotted : ∀ name ∈ text.splitOn slash, name ≠ dotName ∧ name ≠ dotDotName := by
    intro name mem
    have := any_eq_false.mp noDots name mem
    simpa using this
  have real {name : PathText} (mem : name ∈ text.splitOn slash) (filled : name ≠ []) :
      isRealName name = true :=
    isRealName_iff.mpr (not_or.mpr ⟨filled, (undotted name mem).1⟩)
  have normal : NormalNames (isRooted text) (pathNames text) := by
    refine @NormalNames.append _ _ (pathNames text) .nil (fun name mem => ?_) fun mem => ?_
    · exact ⟨(mem_filter.mp mem).2, whole_of_mem_splitOn (mem_filter.mp mem).1⟩
    · exact (undotted _ (mem_filter.mp mem).1).2 rfl
  have noLeader : (pathNames text).getLast? ≠ some dotDotName := by
    intro last
    exact (undotted _ (mem_filter.mp (mem_of_getLast? last)).1).2 rfl
  have whole := lexicallyNormal_parts some_ normal
  rw [whole]
  refine eq_of_parts ?_
  rw [splitOn_normalParts normal]
  -- A name at the end is no directory; nothing behind the last separator is one.
  have ends {last : PathText} (mem : last ∈ text.splitOn slash) (named : pathNames text ≠ []) :
      decide (pathNames text ≠ [] ∧ (pathNames text).getLast? ≠ some dotDotName ∧
        (last = [] ∨ last = dotName ∨ last = dotDotName)) = decide (last = []) := by
    have := undotted last mem
    simp [named, noLeader, this.1, this.2]
  obtain ⟨first, tail, parts⟩ := exists_cons_of_ne_nil (splitOn_ne_nil slash text)
  rcases eq_nil_or_concat' tail with rfl | ⟨middle, last, rfl⟩
  · have same : text = first := by
      rw [← @intercalate_splitOn _ text _ _ slash, parts, intercalate_singleton]
    subst same
    have filled := real (parts ▸ mem_cons_self) some_
    have names : pathNames text = [text] := by
      rw [pathNames, parts, filter_cons_of_pos filled, filter_nil]
    rw [parts, getLastD_cons, getLastD_nil,
      ends (parts ▸ mem_cons_self) (names ▸ cons_ne_nil _ _), names,
      isRooted_of_part parts, decide_eq_false some_]
    rfl
  · have within : ∀ name ∈ middle, isRealName name = true := by
      intro name mem
      rw [parts, tail_cons, dropLast_concat] at noGaps
      refine real (parts ▸ mem_cons_of_mem _ (mem_append_left _ mem)) fun gap => ?_
      exact absurd (decide_eq_true gap) (any_eq_false.mp noGaps name mem)
    have lastMem : last ∈ text.splitOn slash := by
      rw [parts]
      exact mem_cons_of_mem _ (mem_append_right _ (mem_singleton_self _))
    have names : pathNames text =
        [first].filter isRealName ++ middle ++ [last].filter isRealName := by
      rw [pathNames, parts, ← singleton_append, filter_append, filter_append,
        filter_eq_self.mpr within, append_assoc]
    rw [isRooted_of_parts parts (append_ne_nil_of_right_ne_nil _ (cons_ne_nil _ _)), parts,
      getLastD_cons, getLastD_concat]
    have endsHere := ends lastMem
    have head (filled : first ≠ []) : [first].filter isRealName = [first] :=
      filter_cons_of_pos (real (parts ▸ mem_cons_self) filled)
    have tail (filled : last ≠ []) : [last].filter isRealName = [last] :=
      filter_cons_of_pos (real lastMem filled)
    have gap : [([] : PathText)].filter isRealName = [] := rfl
    rw [normalParts]
    by_cases starts : first = []
    · subst starts
      rw [gap, nil_append] at names
      by_cases closes : last = []
      · subst closes
        rw [gap, append_nil] at names
        split
        next none_ =>
          rw [names] at none_
          rw [none_]
          rfl
        next named =>
          rw [endsHere named, names]
          rfl
      · rw [tail closes] at names
        have named : pathNames text ≠ [] :=
          names ▸ append_ne_nil_of_right_ne_nil _ (cons_ne_nil _ _)
        rw [if_neg named, endsHere named, names, decide_eq_false closes]
        simp
    · rw [head starts] at names
      have named : pathNames text ≠ [] := by
        rw [names]
        exact append_ne_nil_of_left_ne_nil (cons_ne_nil _ _) _
      rw [if_neg named, endsHere named, names, decide_eq_false starts]
      by_cases closes : last = []
      · rw [closes, gap]
        simp
      · rw [tail closes, decide_eq_false closes]
        simp

end Microide.Util
