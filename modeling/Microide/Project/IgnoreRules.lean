/-
Ignore rules.

A line of an ignore file is parsed to a rule once, and its pattern classified: a literal, a literal
behind a star or before one, or a glob. A rule without a separator is about the last name of a path,
every other one about the path below the rule's directory.

**Main results.** `patternShape_text`: a shape answers as the glob that it replaces;
`parseRule_matchesPath`: what a parsed rule matches.
-/

import Mathlib.Data.List.DropRight
import Microide.Project.GlobLanguage
import Microide.Util.PathMatch

namespace Microide.Project

open List Bool Lib
open Util
open Glob hiding slash

/-! ### Patterns -/

/-- `ToSlash`. -/
def toSlash (path : PathText) : PathText := lexicallyNormal path

def isGlobMetacharacter (c : UInt8) : Bool :=
  c = asterisk || c = questionMark || c = openBracket || c = backslash

/-- The bytes that the pattern starts with and that stand for themselves. -/
def literalRun (pattern : GlobText) : GlobText := pattern.takeWhile (!isGlobMetacharacter ·)

def literalPrefixLength (pattern : GlobText) : Nat := (literalRun pattern).length

/-- The literal first, then the rest of the pattern on the rest of the text. -/
def globMatchesAfterLiteral (pattern literal : GlobText) (text : PathText) : Bool :=
  literal <+: text &&
    globMatches .segmentAnchored (pattern.drop literal.length) (text.drop literal.length)

/-! ### Rules -/

inductive PatternShape where
  | exact
  | suffix
  | starting
  | glob
  deriving DecidableEq

structure IgnoreRule where
  baseRelative : PathText
  /-- The base with a separator behind it; nothing at the root. -/
  basePrefix : PathText
  pattern : GlobText
  /-- What the shape compares; the literal run of a glob. -/
  literal : GlobText
  shape : PatternShape
  negated : Bool
  directoryOnly : Bool
  matchBasename : Bool

def IgnoreRule.matchesText (rule : IgnoreRule) (text : PathText) : Bool :=
  match rule.shape with
  | .exact => text = rule.literal
  | .suffix => rule.literal <:+ text
  | .starting => rule.literal <+: text
  | .glob => globMatchesAfterLiteral rule.pattern rule.literal text

/-- `/**`. -/
def everythingBelow : GlobText := [slash, asterisk, asterisk]

/-- `Rule::Matches`. -/
def IgnoreRule.matchesPath (rule : IgnoreRule) (path lastComponent : PathText)
    (isDirectory : Bool) : Bool :=
  if rule.basePrefix ≠ [] ∧ (path = rule.baseRelative ∨ ¬rule.basePrefix <+: path) then false
  else
    let relative := path.drop rule.basePrefix.length
    if relative = [] then false
    else if rule.directoryOnly = true ∧ isDirectory = false then false
    else if rule.matchBasename then rule.matchesText lastComponent
    else if rule.matchesText relative then true
    else if isDirectory = true ∧ rule.directoryOnly = false ∧ rule.negated = false ∧
        rule.shape = .glob ∧ 3 < rule.pattern.length ∧ everythingBelow <:+ rule.pattern then
      -- A directory is matched with all that is below it.
      let stem := rule.pattern.take (rule.pattern.length - 3)
      globMatchesAfterLiteral stem (rule.literal.take (min rule.literal.length stem.length)) relative
    else false

/-! ### Parsing -/

def hash : UInt8 := 0x23

def isLineEnd (c : UInt8) : Bool := c = 0x0D || c = 0x0A

def isBlank (c : UInt8) : Bool := c = 0x20 || c = 0x09

/-- The line, read from its end, without the blanks there; an odd number of backslashes before a blank
escapes it. -/
def dropBlanks : PathText → PathText
  | [] => []
  | c :: rest =>
    if isBlank c then
      if (rest.takeWhile (· = backslash)).length % 2 = 1 then c :: rest else dropBlanks rest
    else c :: rest

def trimLine (line : PathText) : PathText := (dropBlanks (line.rdropWhile isLineEnd).reverse).reverse

/-- The shape of a pattern, and the literal that goes with it. -/
def patternShape (anchored : Bool) (pattern : GlobText) : PatternShape × GlobText :=
  let literalLength := literalPrefixLength pattern
  if literalLength = pattern.length then (.exact, pattern)
  else if anchored = false ∧ pattern.head? = some asterisk ∧
      literalPrefixLength pattern.tail = pattern.length - 1 then (.suffix, pattern.tail)
  else if anchored = false ∧ pattern.getLast? = some asterisk ∧
      literalLength = pattern.length - 1 then (.starting, pattern.take literalLength)
  else (.glob, pattern.take literalLength)

def parseRule (baseRelative line : PathText) : Option IgnoreRule :=
  let line := trimLine line
  if line = [] ∨ line.head? = some hash then none
  else
    let negated : Bool := line.head? = some exclamation
    let escaped : Bool := line.head? = some backslash ∧
      ((line)[1]? = some hash ∨ (line)[1]? = some exclamation)
    let line := if negated || escaped then line.tail else line
    let directoryOnly : Bool := line.getLast? = some slash
    let line := if directoryOnly then line.dropLast else line
    let rooted : Bool := line.head? = some slash
    let line := if rooted then line.tail else line
    let anchored : Bool := rooted || line.contains slash
    let pattern := toSlash line
    if pattern = [] ∨ pattern = dotName then none
    else
      let base := toSlash baseRelative
      let shaped := patternShape anchored pattern
      some {
        baseRelative := base
        basePrefix := if base ≠ [] ∧ base ≠ dotName then base ++ [slash] else []
        pattern := pattern
        literal := shaped.2
        shape := shaped.1
        negated := negated
        directoryOnly := directoryOnly
        matchBasename := !anchored }

/-! ### Literals in patterns -/

section Literals

variable {mode : GlobDoubleStar} {l : GlobText} {t u : PathText}

theorem plain_of_mem_literalRun {pattern : GlobText} {c : UInt8} (mem : c ∈ literalRun pattern) :
    isGlobMetacharacter c = false := by
  have plain := mem_takeWhile_imp mem
  simpa using plain

theorem literalRun_eq_self (whole : literalPrefixLength l = l.length) : literalRun l = l :=
  (List.takeWhile_prefix _).eq_of_length whole

theorem take_literalPrefixLength (pattern : GlobText) :
    pattern.take (literalPrefixLength pattern) = literalRun pattern :=
  (prefix_iff_eq_take.mp (List.takeWhile_prefix _)).symm

/-- Bytes that stand for themselves are their own tokens. -/
theorem globTokens_literals (plain : ∀ c ∈ l, isGlobMetacharacter c = false) (bounded : Bool) :
    globTokens mode bounded l = l.map .literal := by
  induction l generalizing bounded with
  | nil => rw [globTokens.eq_def]; rfl
  | cons c l ih =>
    have here := plain c mem_cons_self
    simp only [isGlobMetacharacter, or_eq_false_iff, decide_eq_false_iff_not] at here
    obtain ⟨⟨⟨notStar, notQuestion⟩, notOpen⟩, notBackslash⟩ := here
    have read : readByte (c :: l) = (c, 1) := by
      cases l with
      | nil => rfl
      | cons next l => exact if_neg notBackslash
    rw [globTokens.eq_def]
    dsimp only
    rw [if_neg notStar, if_neg notQuestion, if_neg notOpen, read,
      show (c :: l).drop 1 = l from rfl, ih fun d mem => plain d (mem_cons_of_mem _ mem)]
    rfl

theorem leads_literals : Leads Glob.slash (l.map .literal) t u ↔ t = l ++ u := by
  induction l generalizing t with
  | nil => exact Iff.rfl
  | cons c l ih =>
    constructor
    · rintro ⟨part, rest, rfl, ⟨a, rfl, same⟩, leads⟩
      rw [ih.mp leads, of_decide_eq_true same]
      rfl
    · rintro rfl
      exact ⟨[c], l ++ u, rfl, ⟨c, rfl, decide_eq_true rfl⟩, ih.mpr rfl⟩

/-- A star and a literal match what ends with the literal, where no separator is in the way. -/
theorem globMatches_star (plain : ∀ c ∈ l, isGlobMetacharacter c = false) (whole : slash ∉ t) :
    globMatches .segmentAnchored (asterisk :: l) t = true ↔ l <:+ t := by
  have noStar : l.head? ≠ some asterisk := by
    intro head
    have meta_ := plain asterisk (mem_of_head? head)
    exact absurd meta_ (by decide)
  have behind : l.dropWhile (· = asterisk) = l := by
    cases l with
    | nil => rfl
    | cons c l =>
      refine dropWhile_cons_of_neg fun star => noStar ?_
      exact congrArg some (of_decide_eq_true star)
  have tokens : globTokens .segmentAnchored true (asterisk :: l) = .run :: l.map .literal := by
    rw [globTokens.eq_def]
    dsimp only
    rw [if_pos rfl, if_neg fun several => noStar several.1, behind, globTokens_literals plain]
  rw [(globMatches_gitignore _ t).2, GlobLanguage, tokens]
  constructor
  · rintro ⟨front, rest, rfl, -, leads⟩
    rw [leads_literals, append_nil] at leads
    exact ⟨front, by rw [leads]⟩
  · rintro ⟨front, rfl⟩
    refine ⟨front, l, rfl, fun mem => whole (mem_append_left _ mem), ?_⟩
    exact leads_literals.mpr (append_nil l).symm

theorem globMatches_nil : globMatches .segmentAnchored [] t = true ↔ t = [] := by
  rw [(globMatches_gitignore [] t).2, GlobLanguage,
    @globTokens_literals .segmentAnchored [] (fun _ mem => absurd mem not_mem_nil) true]
  exact leads_literals

end Literals

/-! ### Shapes -/

/-- The pattern on a text, its own literal run first. -/
def globAfterRun (pattern : GlobText) (text : PathText) : Bool :=
  globMatchesAfterLiteral pattern (literalRun pattern) text

theorem globMatchesAfterLiteral_iff {literal rest : GlobText} {text : PathText} :
    globMatchesAfterLiteral (literal ++ rest) literal text = true ↔
      ∃ tail, text = literal ++ tail ∧ globMatches .segmentAnchored rest tail = true := by
  rw [globMatchesAfterLiteral, and_eq_true, decide_eq_true_eq, drop_left]
  constructor
  · rintro ⟨⟨tail, rfl⟩, found⟩
    rw [drop_left] at found
    exact ⟨tail, rfl, found⟩
  · rintro ⟨tail, rfl, found⟩
    rw [drop_left]
    exact ⟨prefix_append _ _, found⟩

/-- **A shape answers as the glob** that it replaces; the shapes of patterns for names do so on
names. -/
theorem patternShape_text {rule : IgnoreRule} {anchored : Bool}
    (shaped : patternShape anchored rule.pattern = (rule.shape, rule.literal)) {text : PathText}
    (whole : anchored = false → slash ∉ text) :
    rule.matchesText text = globAfterRun rule.pattern text := by
  rw [patternShape] at shaped
  rw [Bool.eq_iff_iff]
  split at shaped
  next plain =>
    obtain ⟨shape, literal⟩ := Prod.mk.inj shaped
    have run := literalRun_eq_self plain
    have spec := @globMatchesAfterLiteral_iff rule.pattern [] text
    rw [append_nil] at spec
    rw [IgnoreRule.matchesText, ← shape, ← literal, globAfterRun, run, spec]
    rw [decide_eq_true_eq]
    constructor
    · rintro rfl
      exact ⟨[], (append_nil _).symm, globMatches_nil.mpr rfl⟩
    · rintro ⟨tail, rfl, found⟩
      rw [globMatches_nil.mp found, append_nil]
  · split at shaped
    next starts =>
      obtain ⟨name, star, plain⟩ := starts
      obtain ⟨shape, literal⟩ := Prod.mk.inj shaped
      obtain ⟨tail, same⟩ := head?_eq_some_iff.mp star
      rw [same, tail_cons, length_cons, Nat.add_sub_cancel] at plain
      have run := literalRun_eq_self plain
      have noRun : literalRun (asterisk :: tail) = [] := rfl
      have spec := @globMatchesAfterLiteral_iff [] (asterisk :: tail) text
      rw [nil_append] at spec
      rw [IgnoreRule.matchesText, ← shape, ← literal, globAfterRun, same, noRun, spec]
      rw [decide_eq_true_eq, tail_cons]
      have plainTail : ∀ c ∈ tail, isGlobMetacharacter c = false := by
        intro c mem
        rw [← run] at mem
        exact plain_of_mem_literalRun mem
      have ends := globMatches_star plainTail (whole name)
      constructor
      · exact fun found => ⟨text, rfl, ends.mpr found⟩
      · rintro ⟨whole_, rfl, found⟩
        exact ends.mp found
    · split at shaped
      next ends =>
        obtain ⟨name, star, length⟩ := ends
        obtain ⟨shape, literal⟩ := Prod.mk.inj shaped
        obtain ⟨front, same⟩ := getLast?_eq_some_iff.mp star
        have run : literalRun rule.pattern = front := by
          have cut := take_literalPrefixLength rule.pattern
          rw [length, same, length_append, length_singleton, Nat.add_sub_cancel, take_left] at cut
          rw [same]
          exact cut.symm
        rw [IgnoreRule.matchesText, ← shape, ← literal, take_literalPrefixLength, globAfterRun, run]
        rw [same, globMatchesAfterLiteral_iff, decide_eq_true_eq]
        constructor
        · rintro ⟨tail, rfl⟩
          refine ⟨tail, rfl, ?_⟩
          have inside : slash ∉ tail := fun mem => whole name (mem_append_right _ mem)
          exact (globMatches_star (fun _ mem => absurd mem not_mem_nil) inside).mpr nil_suffix
        · rintro ⟨tail, rfl, -⟩
          exact prefix_append _ _
      · obtain ⟨shape, literal⟩ := Prod.mk.inj shaped
        rw [IgnoreRule.matchesText, ← shape, ← literal, take_literalPrefixLength]
        rfl

/-! ### What a rule matches -/

/-- What parsing makes sure of. -/
structure IgnoreRule.Formed (rule : IgnoreRule) : Prop where
  shaped : patternShape (!rule.matchBasename) rule.pattern = (rule.shape, rule.literal)
  base : rule.basePrefix = [] ∨ rule.basePrefix = rule.baseRelative ++ [slash]

theorem parseRule_formed {baseRelative line : PathText} {rule : IgnoreRule}
    (parsed : parseRule baseRelative line = some rule) : rule.Formed := by
  simp only [parseRule, Option.ite_none_left_eq_some, Option.some.injEq] at parsed
  obtain ⟨-, -, rfl⟩ := parsed
  constructor
  · dsimp only
    rw [Bool.not_not]
  · dsimp only
    split
    · exact .inr rfl
    · exact .inl rfl

/-- The rule is about the entry of this name, at this place below the rule's directory. No shape and
no precomputed literal is looked at. -/
def IgnoreRule.IsAbout (rule : IgnoreRule) (relative name : PathText) (isDirectory : Bool) : Prop :=
  if rule.matchBasename then globAfterRun rule.pattern name = true
  else globAfterRun rule.pattern relative = true ∨
    isDirectory = true ∧ rule.directoryOnly = false ∧ rule.negated = false ∧
      ∃ stem, stem ≠ [] ∧ rule.pattern = stem ++ everythingBelow ∧ globAfterRun stem relative = true

/-- The rule applies to the entry. -/
def IgnoreRule.Applies (rule : IgnoreRule) (path name : PathText) (isDirectory : Bool) : Prop :=
  ∃ relative, relative ≠ [] ∧ path = rule.basePrefix ++ relative ∧
    (rule.directoryOnly = true → isDirectory = true) ∧ rule.IsAbout relative name isDirectory

/-- The literal run of a pattern's front. -/
theorem take_literalRun_append (stem rest : GlobText) :
    (literalRun (stem ++ rest)).take (min (literalRun (stem ++ rest)).length stem.length) =
      literalRun stem := by
  rw [← take_take, take_take, min_comm, ← take_take, take_length]
  rw [literalRun, literalRun, takeWhile_append]
  split
  next all =>
    rw [take_left, (List.takeWhile_prefix _).eq_of_length all]
  · exact take_of_length_le (List.takeWhile_prefix _).length_le

namespace IgnoreRule.Formed

variable {rule : IgnoreRule}

section

variable (formed : rule.Formed)

include formed

/-- The shape test, on names where the rule is about names. -/
theorem text {text : PathText} (whole : rule.matchBasename = true → slash ∉ text) :
    rule.matchesText text = globAfterRun rule.pattern text := by
  refine patternShape_text formed.shaped fun name => whole ?_
  rwa [not_eq_false'] at name

/-- What is left of a path below the rule's directory. -/
theorem below {path : PathText} :
    ¬(rule.basePrefix ≠ [] ∧ (path = rule.baseRelative ∨ ¬rule.basePrefix <+: path)) ↔
      rule.basePrefix <+: path := by
  constructor
  · intro inside
    by_cases root : rule.basePrefix = []
    · rw [root]
      exact nil_prefix
    · exact not_not.mp fun out => inside ⟨root, .inr out⟩
  · rintro inside ⟨some_, same | out⟩
    · rcases formed.base with root | based
      · exact some_ root
      · have length := inside.length_le
        rw [based, same, length_append, length_singleton] at length
        exact Nat.not_succ_le_self _ length
    · exact out inside

/-- A pattern that names all that is below a directory has the glob shape, and its literal run. -/
theorem everythingBelow_glob (anchored : rule.matchBasename = false) {stem : GlobText}
    (pattern : rule.pattern = stem ++ everythingBelow) :
    rule.shape = .glob ∧ rule.literal = literalRun rule.pattern := by
  have shaped := formed.shaped
  rw [anchored, Bool.not_false, patternShape] at shaped
  have notPlain : literalPrefixLength rule.pattern ≠ rule.pattern.length := by
    intro plain
    have run := literalRun_eq_self plain
    have star : asterisk ∈ literalRun rule.pattern := by
      rw [run, pattern]
      exact mem_append_right _ (by decide)
    exact absurd (plain_of_mem_literalRun star) (by decide)
  rw [if_neg notPlain, if_neg fun named => Bool.false_ne_true named.1.symm,
    if_neg fun named => Bool.false_ne_true named.1.symm, take_literalPrefixLength] at shaped
  exact ⟨(Prod.mk.inj shaped).1.symm, (Prod.mk.inj shaped).2.symm⟩

/-- The test of a directory by what is below it. -/
theorem stem_iff (anchored : rule.matchBasename = false) {relative : PathText}
    {isDirectory : Bool} :
    (if isDirectory = true ∧ rule.directoryOnly = false ∧ rule.negated = false ∧
        rule.shape = .glob ∧ 3 < rule.pattern.length ∧ everythingBelow <:+ rule.pattern then
      globMatchesAfterLiteral (rule.pattern.take (rule.pattern.length - 3))
        (rule.literal.take (min rule.literal.length
          (rule.pattern.take (rule.pattern.length - 3)).length)) relative
      else false) = true ↔
      isDirectory = true ∧ rule.directoryOnly = false ∧ rule.negated = false ∧
        ∃ stem, stem ≠ [] ∧ rule.pattern = stem ++ everythingBelow ∧
          globAfterRun stem relative = true := by
  have answer {stem : GlobText} (pattern : rule.pattern = stem ++ everythingBelow) :
      globMatchesAfterLiteral (rule.pattern.take (rule.pattern.length - 3))
        (rule.literal.take (min rule.literal.length
          (rule.pattern.take (rule.pattern.length - 3)).length)) relative =
        globAfterRun stem relative := by
    have front : rule.pattern.take (rule.pattern.length - 3) = stem := by
      rw [pattern, length_append, show everythingBelow.length = 3 from rfl, Nat.add_sub_cancel,
        take_left]
    rw [front, (formed.everythingBelow_glob anchored pattern).2, pattern, take_literalRun_append]
    rfl
  constructor
  · intro found
    split at found
    next tested =>
      obtain ⟨directory, only, negated, -, long, stem, pattern⟩ := tested
      refine ⟨directory, only, negated, stem, ?_, pattern.symm, (answer pattern.symm).symm.trans found⟩
      rintro rfl
      rw [← pattern] at long
      exact absurd long (by decide)
    · exact absurd found Bool.false_ne_true
  · rintro ⟨directory, only, negated, stem, some_, pattern, found⟩
    have shape := (formed.everythingBelow_glob anchored pattern).1
    have long : 3 < rule.pattern.length := by
      rw [pattern, length_append]
      exact Nat.lt_add_of_pos_left (length_pos_of_ne_nil some_)
    rw [if_pos ⟨directory, only, negated, shape, long, stem, pattern.symm⟩, answer pattern, found]

/-- **What a parsed rule matches.** -/
theorem matchesPath_iff {path name : PathText} (whole : slash ∉ name) (isDirectory : Bool) :
    rule.matchesPath path name isDirectory = true ↔ rule.Applies path name isDirectory := by
  rw [IgnoreRule.matchesPath]
  by_cases inside : rule.basePrefix <+: path
  swap
  · rw [if_pos (not_not.mp fun out => inside (formed.below.mp out))]
    refine ⟨fun none_ => absurd none_ Bool.false_ne_true, ?_⟩
    rintro ⟨relative, -, rfl, -⟩
    exact absurd (prefix_append _ _) inside
  rw [if_neg (formed.below.mpr inside)]
  obtain ⟨relative, rfl⟩ := inside
  have applies : rule.Applies (rule.basePrefix ++ relative) name isDirectory ↔
      relative ≠ [] ∧ (rule.directoryOnly = true → isDirectory = true) ∧
        rule.IsAbout relative name isDirectory := by
    constructor
    · rintro ⟨other, some_, same, rest⟩
      rw [append_cancel_left same]
      exact ⟨some_, rest⟩
    · rintro ⟨some_, rest⟩
      exact ⟨relative, some_, rfl, rest⟩
  rw [applies, drop_left]
  by_cases empty : relative = []
  · rw [if_pos empty]
    exact ⟨fun none_ => absurd none_ Bool.false_ne_true, fun about => absurd empty about.1⟩
  rw [if_neg empty, and_iff_right empty]
  by_cases file : rule.directoryOnly = true ∧ isDirectory = false
  · rw [if_pos file]
    refine ⟨fun none_ => absurd none_ Bool.false_ne_true, fun about => ?_⟩
    exact absurd (file.2.symm.trans (about.1 file.1)) Bool.false_ne_true
  have kind : rule.directoryOnly = true → isDirectory = true := by
    intro only
    exact eq_true_of_not_eq_false fun isFile => file ⟨only, isFile⟩
  rw [if_neg file, and_iff_right kind, IgnoreRule.IsAbout]
  cases named : rule.matchBasename with
  | true =>
    rw [if_pos rfl, if_pos rfl, formed.text fun _ => whole]
  | false =>
    rw [if_neg Bool.false_ne_true, if_neg Bool.false_ne_true,
      formed.text fun name => absurd (named.symm.trans name) Bool.false_ne_true]
    cases found : globAfterRun rule.pattern relative with
    | true => exact ⟨fun _ => .inl rfl, fun _ => rfl⟩
    | false =>
      rw [if_neg Bool.false_ne_true, or_iff_right Bool.false_ne_true]
      exact formed.stem_iff named

end

end IgnoreRule.Formed

end Microide.Project
