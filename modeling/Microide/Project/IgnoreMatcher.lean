/-
Layers of ignore rules.

Each directory with an ignore file adds a layer of rules over its parent's; a later rule overrides an
earlier one. A path is ignored where one of its directories is, or where its own last rule says so.

**Main results.** `ignoredEntry_iff`: a layered verdict is that of the last rule of the flat list;
`ancestorIgnored_intercalate`: the walk over the directories of a path; `ignoredNormalized_iff`:
what is ignored.
-/

import Microide.Project.IgnoreRules
import Microide.Util.NormalPaths

namespace Microide.Project

open List Bool Lib
open Util
open Glob hiding slash

/-! ### Matchers -/

/-- A matcher over its parent's; only its own rules are in it. -/
inductive IgnoreMatcher where
  | root (rules : List IgnoreRule)
  | child (parent : IgnoreMatcher) (rules : List IgnoreRule)

namespace IgnoreMatcher

/-- `rules_`. -/
def rules : IgnoreMatcher → List IgnoreRule
  | root rules => rules
  | child _ rules => rules

/-- `MakeChild`. -/
def makeChild : Option IgnoreMatcher → IgnoreMatcher
  | none => root []
  | some parent => child parent []

def addRules (m : IgnoreMatcher) (more : List IgnoreRule) : IgnoreMatcher :=
  match m with
  | root rules => root (rules ++ more)
  | child parent rules => child parent (rules ++ more)

/-- `LoadIgnoreFile`, of a file with these lines. -/
def loadIgnoreFile (m : IgnoreMatcher) (base : PathText) (lines : List PathText) : IgnoreMatcher :=
  m.addRules (lines.filterMap (parseRule base))

/-- `AddExcludeGlobs`. -/
def addExcludeGlobs (m : IgnoreMatcher) (globs : List PathText) : IgnoreMatcher :=
  m.addRules (globs.filterMap (parseRule []))

def kDefaultDirRules : List String :=
  [".git/", ".svn/", ".hg/", ".bzr/",
    "node_modules/", ".cache/", ".venv/", "__pycache__/",
    "build/", "builds/", "out/", "dist/", "target/", "cmake-build-*/", ".vs/",
    "bin/", "obj/"]

def addDefaultRules (m : IgnoreMatcher) : IgnoreMatcher :=
  m.addRules (kDefaultDirRules.filterMap fun text => parseRule [] text.toUTF8.toList)

/-- `ForDirectory`: a layer only where the directory has rules of its own. -/
def forDirectory (parent : Option IgnoreMatcher) (base : PathText) (lines : List PathText) :
    Option IgnoreMatcher :=
  match parent with
  -- A matcher without a parent has no root yet, and loads nothing.
  | none => none
  | some above =>
    let own := (makeChild parent).loadIgnoreFile base lines
    if own.rules = [] then some above else some own

/-- `ForProjectRoot`. -/
def forProjectRoot (lines excludeGlobs : List PathText) : IgnoreMatcher :=
  ((root []).loadIgnoreFile [] lines).addDefaultRules.addExcludeGlobs excludeGlobs

/-- Layers of parsed lines. -/
inductive Built : IgnoreMatcher → Prop where
  | empty : Built (root [])
  | child {parent : IgnoreMatcher} (built : Built parent) : Built (child parent [])
  | lines {m : IgnoreMatcher} (built : Built m) (base : PathText) (lines : List PathText) :
      Built (m.loadIgnoreFile base lines)

/-! ### Queries -/

/-- `LastComponentOf`. -/
def lastComponentOf (path : PathText) : PathText :=
  (path.rdropWhile (· = slash)).rtakeWhile (· ≠ slash)

/-- A layer's rules after its parent's verdict. -/
def applyRules (rules : List IgnoreRule) (path lastComponent : PathText) (isDirectory : Bool)
    (ignored : Bool) : Bool :=
  rules.foldl (fun ignored rule =>
    if rule.matchesPath path lastComponent isDirectory then !rule.negated else ignored) ignored

def ignoredEntry (m : IgnoreMatcher) (path lastComponent : PathText) (isDirectory : Bool) : Bool :=
  match m with
  | root rules => applyRules rules path lastComponent isDirectory false
  | child parent rules =>
    applyRules rules path lastComponent isDirectory (parent.ignoredEntry path lastComponent isDirectory)

def ignoredEntryNormalized (m : IgnoreMatcher) (path : PathText) (isDirectory : Bool) : Bool :=
  m.ignoredEntry path (lastComponentOf path) isDirectory

/-- The loop of `IgnoredNormalized`, over the rest of the path: what is before the component at hand,
and the part of it read. -/
def ancestorIgnored (m : IgnoreMatcher) (before component : PathText) : PathText → Bool
  | [] => false
  | c :: rest =>
    if c ≠ slash then m.ancestorIgnored before (component ++ [c]) rest
    else
      (component ≠ [] && m.ignoredEntry (before ++ component) component true) ||
        m.ancestorIgnored (before ++ component ++ [slash]) [] rest

def ignoredNormalized (m : IgnoreMatcher) (path : PathText) (isDirectory : Bool) : Bool :=
  m.ancestorIgnored [] [] path || m.ignoredEntryNormalized path isDirectory

/-- `Ignored`. -/
def ignored (m : IgnoreMatcher) (path : PathText) (isDirectory : Bool) : Bool :=
  m.ignoredNormalized (toSlash path) isDirectory

/-! ### Verdicts -/

/-- The rules of all layers, the ancestors' first. -/
def flattened : IgnoreMatcher → List IgnoreRule
  | root rules => rules
  | child parent rules => parent.flattened ++ rules

/-- The last rule that applies to the entry ignores it. -/
def Verdict (rules : List IgnoreRule) (path name : PathText) (isDirectory : Bool) : Prop :=
  ∃ earlier rule later, rules = earlier ++ rule :: later ∧ rule.Applies path name isDirectory ∧
    rule.negated = false ∧ ∀ other ∈ later, ¬other.Applies path name isDirectory

theorem flattened_addRules (m : IgnoreMatcher) (more : List IgnoreRule) :
    (m.addRules more).flattened = m.flattened ++ more := by
  cases m with
  | root rules => rfl
  | child parent rules => exact (append_assoc _ _ _).symm

/-- The rules of built layers are parsed ones. -/
theorem Built.formed {m : IgnoreMatcher} (built : m.Built) : ∀ rule ∈ m.flattened, rule.Formed := by
  induction built with
  | empty => exact fun rule mem => absurd mem not_mem_nil
  | child built ih =>
    intro rule mem
    rcases mem_append.mp mem with mem | mem
    · exact ih rule mem
    · exact absurd mem not_mem_nil
  | lines built base lines ih =>
    intro rule mem
    rw [loadIgnoreFile, flattened_addRules] at mem
    rcases mem_append.mp mem with mem | mem
    · exact ih rule mem
    · obtain ⟨line, -, parsed⟩ := mem_filterMap.mp mem
      exact parseRule_formed parsed

section Entries

variable {path name : PathText} {isDirectory : Bool}

/-- The layers one after the other are the flat list. -/
theorem ignoredEntry_flattened (m : IgnoreMatcher) :
    m.ignoredEntry path name isDirectory = applyRules m.flattened path name isDirectory false := by
  induction m with
  | root rules => rfl
  | child parent rules ih =>
    rw [ignoredEntry, ih, flattened, applyRules, applyRules, applyRules, foldl_append]

/-- Rules in order: the last that applies decides. -/
theorem applyRules_iff {rules : List IgnoreRule} (formed : ∀ rule ∈ rules, rule.Formed)
    (whole : slash ∉ name) :
    applyRules rules path name isDirectory false = true ↔ Verdict rules path name isDirectory := by
  induction rules using List.reverseRecOn with
  | nil =>
    refine ⟨fun none_ => absurd none_ Bool.false_ne_true, ?_⟩
    rintro ⟨earlier, rule, later, cut, -⟩
    exact absurd cut.symm (append_ne_nil_of_right_ne_nil _ (cons_ne_nil _ _))
  | append_singleton rules last ih =>
    have ih := ih fun rule mem => formed rule (mem_append_left _ mem)
    have matches_ := @IgnoreRule.Formed.matchesPath_iff last
      (formed last (mem_append_right _ (mem_singleton_self _))) path _ whole isDirectory
    rw [applyRules, foldl_append, foldl_cons, foldl_nil, ← applyRules]
    split
    next found =>
      have applies := matches_.mp found
      rw [not_eq_true']
      constructor
      · exact fun ignores =>
          ⟨rules, last, [], rfl, applies, ignores, fun other mem => absurd mem not_mem_nil⟩
      · rintro ⟨earlier, rule, later, cut, -, ignores, none_⟩
        rcases eq_nil_or_concat' later with rfl | ⟨later, other, rfl⟩
        · obtain ⟨-, same⟩ := append_inj' cut rfl
          rw [(List.cons.inj same).1]
          exact ignores
        · rw [← cons_append, ← append_assoc] at cut
          obtain ⟨-, same⟩ := append_inj' cut rfl
          obtain rfl := (List.cons.inj same).1
          exact absurd applies (none_ last (mem_append_right _ (mem_singleton_self _)))
    next missed =>
      have skips : ¬last.Applies path name isDirectory := fun applies => missed (matches_.mpr applies)
      rw [ih]
      constructor
      · rintro ⟨earlier, rule, later, rfl, applies, ignores, none_⟩
        refine ⟨earlier, rule, later ++ [last], by rw [append_assoc]; rfl, applies, ignores, ?_⟩
        intro other mem
        rcases mem_append.mp mem with mem | mem
        · exact none_ other mem
        · rw [mem_singleton.mp mem]
          exact skips
      · rintro ⟨earlier, rule, later, cut, applies, ignores, none_⟩
        rcases eq_nil_or_concat' later with rfl | ⟨later, other, rfl⟩
        · obtain ⟨-, same⟩ := append_inj' cut rfl
          rw [(List.cons.inj same).1] at skips
          exact absurd applies skips
        · rw [← cons_append, ← append_assoc] at cut
          refine ⟨earlier, rule, later, (append_inj' cut rfl).1, applies, ignores, ?_⟩
          exact fun other mem => none_ other (mem_append_left _ mem)

/-- **The layered verdict** is that of the last rule of the flat list that applies. -/
theorem ignoredEntry_iff {m : IgnoreMatcher} (built : m.Built) (whole : slash ∉ name) :
    m.ignoredEntry path name isDirectory = true ↔ Verdict m.flattened path name isDirectory := by
  rw [ignoredEntry_flattened, applyRules_iff built.formed whole]

theorem built_forProjectRoot (lines excludeGlobs : List PathText) :
    (forProjectRoot lines excludeGlobs).Built := by
  have defaults (m : IgnoreMatcher) : m.addDefaultRules =
      m.loadIgnoreFile [] (kDefaultDirRules.map fun text => text.toUTF8.toList) := by
    rw [addDefaultRules, loadIgnoreFile, filterMap_map]
    rfl
  rw [forProjectRoot, defaults]
  exact .lines (.lines (.lines .empty [] lines) [] _) [] excludeGlobs

/-- Nothing is said of the empty path. -/
theorem not_verdict_nil {rules : List IgnoreRule} : ¬Verdict rules [] name isDirectory := by
  rintro ⟨-, rule, -, -, ⟨relative, some_, empty, -⟩, -⟩
  exact some_ (append_eq_nil_iff.mp empty.symm).2

end Entries

/-! ### The names of a path -/

/-- The last name in a list of parts. -/
def lastName (parts : List PathText) : PathText := (parts.filter (· ≠ [])).getLastD []

theorem lastName_concat {parts : List PathText} {name : PathText} (some_ : name ≠ []) :
    lastName (parts ++ [name]) = name := by
  have kept : [name].filter (· ≠ []) = [name] := filter_cons_of_pos (decide_eq_true some_)
  rw [lastName, filter_append, kept, getLastD_concat]

theorem lastName_concat_nil {parts : List PathText} :
    lastName (parts ++ [[]]) = lastName parts := by
  rw [lastName, filter_append, filter_cons_of_neg (by simp), filter_nil, append_nil]
  rfl

theorem lastName_whole {parts : List PathText} (whole : ∀ part ∈ parts, slash ∉ part) :
    slash ∉ lastName parts := by
  rcases eq_nil_or_concat' (parts.filter (· ≠ [])) with none_ | ⟨more, name, cut⟩
  · rw [lastName, none_]
    exact not_mem_nil
  · rw [lastName, cut, getLastD_concat]
    have mem : name ∈ parts.filter (· ≠ []) := by
      rw [cut]
      exact mem_append_right _ (mem_singleton_self _)
    exact whole name (mem_filter.mp mem).1

/-- What is behind the last separator. -/
theorem rtakeWhile_behind {text name : PathText} (whole : slash ∉ name) :
    (text ++ slash :: name).rtakeWhile (· ≠ slash) = name := by
  have all : ∀ c ∈ name.reverse, decide (c ≠ slash) = true := fun c mem =>
    decide_eq_true fun same => whole (mem_reverse.mp (same ▸ mem))
  have stop : (slash :: text.reverse).takeWhile (· ≠ slash) = [] :=
    takeWhile_cons_of_neg (by simp)
  rw [List.rtakeWhile, reverse_append, reverse_cons, append_assoc,
    takeWhile_append_of_pos all, singleton_append, stop, append_nil,
    reverse_reverse]

/-- The last name, as it is cut out of the text. -/
theorem lastComponentOf_intercalate {parts : List PathText} (whole : ∀ part ∈ parts, slash ∉ part) :
    lastComponentOf (List.intercalate [slash] parts) = lastName parts := by
  induction parts using List.reverseRecOn with
  | nil => rfl
  | append_singleton parts last ih =>
    have ih := ih fun part mem => whole part (mem_append_left _ mem)
    have inner := whole last (mem_append_right _ (mem_singleton_self _))
    by_cases empty : last = []
    · subst empty
      rw [lastName_concat_nil, ← ih]
      by_cases none_ : parts = []
      · rw [none_]
        rfl
      · rw [intercalate_append none_ (cons_ne_nil _ _), intercalate_singleton, lastComponentOf]
        have drops := rdropWhile_concat_pos (fun c => decide (c = slash))
          (List.intercalate [slash] parts) slash (decide_eq_true rfl)
        rw [drops]
        rfl
    · rw [lastName_concat empty]
      obtain ⟨front, c, rfl⟩ := (eq_nil_or_concat' last).resolve_left empty
      have stays (text : PathText) :
          (text ++ (front ++ [c])).rdropWhile (· = slash) = text ++ (front ++ [c]) := by
        rw [← append_assoc]
        refine rdropWhile_concat_neg _ _ _ fun isSlash => inner ?_
        rw [← of_decide_eq_true isSlash]
        exact mem_append_right _ (mem_singleton_self _)
      have takes : (front ++ [c]).rtakeWhile (· ≠ slash) = front ++ [c] :=
        rtakeWhile_eq_self_iff.mpr fun d mem => decide_eq_true fun same => inner (same ▸ mem)
      by_cases none_ : parts = []
      · have stays := stays []
        rw [nil_append] at stays
        rw [none_, nil_append, intercalate_singleton, lastComponentOf, stays, takes]
      · rw [intercalate_append none_ (cons_ne_nil _ _), intercalate_singleton,
          lastComponentOf, append_cons, stays, ← append_cons, rtakeWhile_behind inner]

/-! ### The walk over the directories -/

theorem ancestorIgnored_append (m : IgnoreMatcher) {before component name rest : PathText}
    (whole : slash ∉ name) : m.ancestorIgnored before component (name ++ rest) =
      m.ancestorIgnored before (component ++ name) rest := by
  induction name generalizing component with
  | nil => rw [nil_append, append_nil]
  | cons c name ih =>
    have other : c ≠ slash := fun same => whole (same ▸ mem_cons_self)
    rw [cons_append, ancestorIgnored, if_pos other,
      ih fun mem => whole (mem_cons_of_mem _ mem), append_assoc, singleton_append]

/-- **The walk** asks for the verdict of every directory that the path leads through. -/
theorem ancestorIgnored_intercalate (m : IgnoreMatcher) {before : PathText} {parts : List PathText}
    (whole : ∀ part ∈ parts, slash ∉ part) :
    m.ancestorIgnored before [] (List.intercalate [slash] parts) = true ↔
      ∃ front name back, parts = front ++ name :: back ∧ back ≠ [] ∧ name ≠ [] ∧
        m.ignoredEntry (before ++ List.intercalate [slash] (front ++ [name])) name true = true := by
  induction parts generalizing before with
  | nil =>
    refine ⟨fun none_ => absurd none_ Bool.false_ne_true, ?_⟩
    rintro ⟨front, name, back, cut, -⟩
    exact absurd cut.symm (append_ne_nil_of_right_ne_nil _ (cons_ne_nil _ _))
  | cons part parts ih =>
    have inner := whole part mem_cons_self
    have ih := @ih (before ++ part ++ [slash]) fun other mem => whole other (mem_cons_of_mem _ mem)
    by_cases last : parts = []
    · have walked := @ancestorIgnored_append m before [] _ [] inner
      rw [append_nil, nil_append] at walked
      rw [last, intercalate_singleton, walked]
      refine ⟨fun none_ => absurd none_ Bool.false_ne_true, ?_⟩
      rintro ⟨front, name, back, cut, some_, -⟩
      have lengths := congrArg List.length cut
      have := length_pos_of_ne_nil some_
      rw [length_singleton, length_append, length_cons] at lengths
      omega
    · have joined (front : List PathText) (name : PathText) :
          before ++ List.intercalate [slash] (part :: front ++ [name]) =
            before ++ part ++ [slash] ++ List.intercalate [slash] (front ++ [name]) := by
        rw [cons_append, intercalate_cons_of_ne_nil
          (append_ne_nil_of_right_ne_nil _ (cons_ne_nil _ _))]
        simp only [append_assoc]
      rw [intercalate_cons_of_ne_nil last, append_assoc, ancestorIgnored_append m inner,
        nil_append, singleton_append, ancestorIgnored, if_neg fun other => other rfl,
        or_eq_true, ih, and_eq_true, decide_eq_true_eq]
      constructor
      · rintro (⟨some_, ignored⟩ | ⟨front, name, back, rfl, more, some_, ignored⟩)
        · exact ⟨[], part, parts, rfl, last, some_, by rwa [nil_append, intercalate_singleton]⟩
        · exact ⟨part :: front, name, back, rfl, more, some_, (joined front name).symm ▸ ignored⟩
      · rintro ⟨front, name, back, cut, more, some_, ignored⟩
        cases front with
        | nil =>
          obtain ⟨rfl, rfl⟩ := List.cons.inj cut
          rw [nil_append, intercalate_singleton] at ignored
          exact .inl ⟨some_, ignored⟩
        | cons first front =>
          obtain ⟨rfl, rfl⟩ := List.cons.inj cut
          exact .inr ⟨front, name, back, rfl, more, some_, joined front name ▸ ignored⟩

/-- What a normal path has between its first and its last part are names. -/
theorem mem_inner_normalParts {rooted : Bool} {names : List PathText} {directory : Bool}
    {part : PathText} (mem : part ∈ (normalParts rooted names directory).tail.dropLast) :
    part ∈ names := by
  have inner (front : List PathText) (sub : ∀ other ∈ front, other ∈ names) :
      part ∈ (front ++ if directory then [[]] else []).dropLast → part ∈ names := by
    intro mem
    cases directory with
    | true =>
      rw [if_pos rfl, dropLast_concat] at mem
      exact sub part mem
    | false =>
      rw [if_neg Bool.false_ne_true, append_nil] at mem
      exact sub part ((dropLast_sublist _).subset mem)
  rw [normalParts] at mem
  split at mem
  · cases rooted with
    | true => exact absurd mem not_mem_nil
    | false => exact absurd mem not_mem_nil
  · cases rooted with
    | true => exact inner names (fun other mem => mem) mem
    | false =>
      rename_i some_
      rw [if_neg Bool.false_ne_true, nil_append, tail_append_of_ne_nil some_] at mem
      exact inner names.tail (fun other mem => mem_of_mem_tail mem) mem

theorem normal_cut {path name : PathText} (normal : IsNormal path) {front back : List PathText}
    (cut : path.splitOn slash = front ++ name :: back) (more : back ≠ []) :
    name ≠ [] ∨ front = [] := by
  by_cases empty : path = []
  · rw [empty, splitOn_nil] at cut
    have lengths := congrArg List.length cut
    have := length_pos_of_ne_nil more
    rw [length_singleton, length_append, length_cons] at lengths
    omega
  obtain ⟨names, directory, spelled⟩ := normal.spelled empty
  cases front with
  | nil => exact .inr rfl
  | cons first front =>
    refine .inl ?_
    have mem : name ∈ (path.splitOn slash).tail.dropLast := by
      rw [cut, cons_append, tail_cons, dropLast_append_of_ne_nil (cons_ne_nil _ _),
        dropLast_cons_of_ne_nil more]
      exact mem_append_right _ mem_cons_self
    rw [spelled.parts] at mem
    exact (not_or.mp (isRealName_iff.mp (spelled.normal.plain name (mem_inner_normalParts mem)).1)).1

/-! ### What is ignored -/

/-- Some leading part of the path is ignored by the last rule that applies to it, each directory on
the way as a directory. -/
def Excluded (rules : List IgnoreRule) (path : PathText) (isDirectory : Bool) : Prop :=
  ∃ front back, path.splitOn slash = front ++ back ∧ front ≠ [] ∧
    Verdict rules (List.intercalate [slash] front) (lastName front) (back ≠ [] || isDirectory)

theorem ignoredNormalized_iff {m : IgnoreMatcher} (built : m.Built) {path : PathText}
    (normal : IsNormal path) (isDirectory : Bool) :
    m.ignoredNormalized path isDirectory = true ↔ Excluded m.flattened path isDirectory := by
  have whole : ∀ part ∈ path.splitOn slash, slash ∉ part := fun part mem => whole_of_mem_splitOn mem
  have joined := @intercalate_splitOn _ path _ _ slash
  have walked := @ancestorIgnored_intercalate m [] _ whole
  have last := lastComponentOf_intercalate whole
  rw [joined] at walked last
  rw [ignoredNormalized, or_eq_true, walked, ignoredEntryNormalized, last,
    ignoredEntry_iff built (lastName_whole whole)]
  constructor
  · rintro (⟨front, name, back, cut, more, some_, ignored⟩ | verdict)
    · have inner : slash ∉ name :=
        whole name (cut ▸ mem_append_right _ mem_cons_self)
      rw [nil_append, ignoredEntry_iff built inner] at ignored
      refine ⟨front ++ [name], back, by rw [cut, append_assoc]; rfl,
        append_ne_nil_of_right_ne_nil _ (cons_ne_nil _ _), ?_⟩
      rwa [lastName_concat some_, decide_eq_true more, Bool.true_or]
    · refine ⟨path.splitOn slash, [], (append_nil _).symm, splitOn_ne_nil slash path, ?_⟩
      rwa [joined]
  · rintro ⟨front, back, cut, some_, verdict⟩
    by_cases more : back = []
    · subst more
      rw [append_nil] at cut
      rw [← cut, joined] at verdict
      exact .inr verdict
    · obtain ⟨above, name, rfl⟩ := (eq_nil_or_concat' front).resolve_left some_
      rw [append_assoc, singleton_append] at cut
      rw [decide_eq_true more, Bool.true_or] at verdict
      refine .inl ⟨above, name, back, cut, more, ?_⟩
      have inner : slash ∉ name :=
        whole name (cut ▸ mem_append_right _ mem_cons_self)
      have named : name ≠ [] := by
        rcases normal_cut normal cut more with named | none_
        · exact named
        · rintro rfl
          rw [none_, nil_append, intercalate_singleton] at verdict
          exact not_verdict_nil verdict
      rw [lastName_concat named] at verdict
      exact ⟨named, (ignoredEntry_iff built inner).mpr verdict⟩

/-- What is below an ignored directory is ignored. -/
theorem ignoredNormalized_below {m : IgnoreMatcher} (built : m.Built) {directory rest : PathText}
    (normal : IsNormal (directory ++ slash :: rest))
    (ignored : m.ignoredNormalized directory true = true) (isDirectory : Bool) :
    m.ignoredNormalized (directory ++ slash :: rest) isDirectory = true := by
  have whole : ∀ part ∈ directory.splitOn slash, slash ∉ part :=
    fun part mem => whole_of_mem_splitOn mem
  have joined := @intercalate_splitOn _ directory _ _ slash
  have parts : (directory ++ slash :: rest).splitOn slash =
      directory.splitOn slash ++ rest.splitOn slash := by
    rw [splitOn_append_cons_self]
  have behind := splitOn_ne_nil slash rest
  have walked := @ancestorIgnored_intercalate m [] _ whole
  have last := lastComponentOf_intercalate whole
  rw [joined] at walked last
  rw [ignoredNormalized, or_eq_true, walked, ignoredEntryNormalized, last] at ignored
  have walkedOn := @ancestorIgnored_intercalate m [] _
    fun part (mem : part ∈ (directory ++ slash :: rest).splitOn slash) => whole_of_mem_splitOn mem
  rw [intercalate_splitOn] at walkedOn
  rw [ignoredNormalized, or_eq_true, walkedOn]
  refine .inl ?_
  rcases ignored with ⟨front, name, back, cut, more, some_, ignored⟩ | ignored
  · refine ⟨front, name, back ++ rest.splitOn slash, ?_, append_ne_nil_of_left_ne_nil more _,
      some_, ignored⟩
    rw [parts, cut, append_assoc, cons_append]
  · obtain ⟨above, name, cut⟩ :=
      (eq_nil_or_concat' (directory.splitOn slash)).resolve_left (splitOn_ne_nil slash _)
    rw [cut, append_assoc, singleton_append] at parts
    have named : name ≠ [] := by
      rcases normal_cut normal parts behind with named | none_
      · exact named
      · rintro rfl
        rw [none_, nil_append] at cut
        rw [cut, intercalate_singleton] at joined
        rw [ignoredEntry_iff built (lastName_whole whole), ← joined] at ignored
        exact not_verdict_nil ignored
    rw [cut, lastName_concat named, ← joined, cut] at ignored
    exact ⟨above, name, _, parts, behind, named, ignored⟩

/-- **Ignoring, as the rules say it.** In layers of parsed rules every shape answers as the glob that
it replaces, on names where the rule is about names; a normal path is ignored where the last rule
that applies ignores it or a directory on the way to it; and with a directory everything below it
is. -/
theorem ignoreVerdicts (m : IgnoreMatcher) (built : m.Built) :
    (∀ rule ∈ m.flattened, ∀ text, (rule.matchBasename = true → slash ∉ text) →
      rule.matchesText text = globAfterRun rule.pattern text) ∧
    (∀ path isDirectory, IsNormal path →
      (m.ignoredNormalized path isDirectory = true ↔ Excluded m.flattened path isDirectory)) ∧
    ∀ directory rest isDirectory, IsNormal (directory ++ slash :: rest) →
      m.ignoredNormalized directory true = true →
        m.ignoredNormalized (directory ++ slash :: rest) isDirectory = true := by
  refine ⟨?_, ?_, ?_⟩
  · intro rule mem text whole
    exact (built.formed rule mem).text whole
  · intro path isDirectory normal
    exact ignoredNormalized_iff built normal isDirectory
  · intro directory rest isDirectory normal ignored
    exact ignoredNormalized_below built normal ignored isDirectory

/-- A project whose ignore file has `*.o` and `!k.o`, and `a/b.o` in it. -/
theorem ignoreVerdicts_project :
    let m := forProjectRoot [[0x2A, 0x2E, 0x6F], [0x21, 0x6B, 0x2E, 0x6F]] []
    m.ignoredNormalized [0x61, 0x2F, 0x62, 0x2E, 0x6F] false = true ↔
      Excluded m.flattened [0x61, 0x2F, 0x62, 0x2E, 0x6F] false :=
  (ignoreVerdicts _ (built_forProjectRoot _ _)).2.1 _ _ (by decide)

end IgnoreMatcher

end Microide.Project
