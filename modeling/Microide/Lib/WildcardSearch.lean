/-
The search with two saved places.

A search for a match of a pattern with wildcards keeps the last wildcard begun, and the last one of
them that crosses the separator. On a mismatch the last wildcard takes in more; where it cannot, the
crossing one does, and no wildcard before that is ever looked at again.

**Main results.** `search_spec`: the search ends, and finds exactly the leftmost matches.
-/

import Mathlib.Data.List.TakeWhile
import Mathlib.Tactic.Ring
import Microide.Lib.Wildcards

namespace Microide.Lib

open List Option

/-- A wildcard begun: the pattern behind it, and the rest of the text behind what it has taken in. -/
structure Saved (α : Type) where
  pattern : List (Wildcard α)
  text : List α
  kind : Wildcard α

structure Search (α : Type) where
  pattern : List (Wildcard α)
  text : List α
  star : Option (Saved α) := none
  deepStar : Option (Saved α) := none

section Search

variable {α : Type} [DecidableEq α] (sep : α)

/-- The next rest a wildcard can leave. -/
def extend : Wildcard α → List α → Option (List α)
  | .run, a :: t => if a = sep then none else some t
  | .deep, _ :: t => some t
  | .folders, t =>
    match t.dropWhile (· ≠ sep) with
    | [] => none
    | _ :: rest => some rest
  | _, _ => none

def Saved.extended (saved : Saved α) : Option (Saved α) :=
  (extend sep saved.kind saved.text).map fun text => { saved with text := text }

namespace Search

/-- The rest of the search after a mismatch, or its answer. -/
def retry (s : Search α) : Search α ⊕ Bool :=
  match s.star.bind (Saved.extended sep) with
  | some saved => .inl { s with pattern := saved.pattern, text := saved.text, star := some saved }
  | none =>
    match s.deepStar.bind (Saved.extended sep) with
    | some saved =>
      .inl { pattern := saved.pattern, text := saved.text, star := none, deepStar := some saved }
    | none => .inr false

/-- A wildcard begun at the text left. -/
def begin (s : Search α) (w : Wildcard α) (p : List (Wildcard α)) : Search α :=
  let saved : Saved α := ⟨p, s.text, w⟩
  { s with
    pattern := p
    star := some saved
    deepStar := if w.crossing then some saved else s.deepStar }

/-- One round. A text at its end is matched where the rest of the pattern is wildcards. -/
def step (s : Search α) : Search α ⊕ Bool :=
  match s.text with
  | [] => .inr (s.pattern.all fun w => !w.single)
  | a :: rest =>
    match s.pattern with
    | [] => s.retry sep
    | w :: p =>
      if w.single then
        if w.takes sep a then .inl { s with pattern := p, text := rest } else s.retry sep
      else if w.isDeep && p.isEmpty then .inr true
      else .inl (s.begin w p)

/-- The answer within a number of rounds. -/
def runFor : Nat → Search α → Option Bool
  | 0, _ => none
  | rounds + 1, s =>
    match s.step sep with
    | .inl next => runFor rounds next
    | .inr answer => some answer

end Search

variable {sep} {p group done : List (Wildcard α)} {cur : List α} {starts : Set (List α)}
  {w : Wildcard α}

/-! ### Restarts -/

/-- `extend` goes through the starts from the longest to the shortest. -/
def Restarts (sep : α) (w : Wildcard α) (starts : Set (List α)) : Prop :=
  ∀ e ∈ starts,
    (∀ e', extend sep w e = some e' → e' ∈ starts ∧ e'.length < e.length ∧
      ∀ r ∈ starts, r.length < e.length → r.length ≤ e'.length) ∧
    (extend sep w e = none → ∀ r ∈ starts, e.length ≤ r.length)

omit [DecidableEq α] in
/-- Of two rests of one list the shorter is a rest of the longer. -/
theorem rest_of_length_le {m e r : List α} (first : ∃ l, m = l ++ e) (second : ∃ l, m = l ++ r)
    (le : r.length ≤ e.length) : ∃ k, e = k ++ r := by
  obtain ⟨l, rfl⟩ := first
  obtain ⟨l', cut⟩ := second
  rcases append_eq_append_iff.mp cut with ⟨k, -, tail⟩ | ⟨k, -, tail⟩
  · exact ⟨k, tail⟩
  · have lengths := congrArg List.length tail
    rw [length_append] at lengths
    obtain rfl := eq_nil_of_length_eq_zero (show k.length = 0 by omega)
    exact ⟨[], tail.symm⟩

theorem after_chain {m e r : List α} (memE : e ∈ After sep w {m}) (memR : r ∈ After sep w {m})
    (le : r.length ≤ e.length) : ∃ k, e = k ++ r := by
  obtain ⟨l, -, first⟩ := memE
  obtain ⟨l', -, second⟩ := memR
  exact rest_of_length_le ⟨l, first.symm⟩ ⟨l', second.symm⟩ le

theorem mem_after_self (crosses : w.crossing = true) (m : List α) : m ∈ After sep w {m} := by
  cases w with
  | deep => exact ⟨[], trivial, rfl⟩
  | folders => exact ⟨[], .inl rfl, rfl⟩
  | literal a => exact absurd crosses Bool.false_ne_true
  | one test => exact absurd crosses Bool.false_ne_true
  | run => exact absurd crosses Bool.false_ne_true

theorem length_le_of_mem_after {m r : List α} (mem : r ∈ After sep w {m}) :
    r.length ≤ m.length := by
  obtain ⟨l, -, cut⟩ := mem
  rw [← (show l ++ r = m from cut), length_append]
  exact Nat.le_add_left _ _

/-- Where the parts of a text begin, from one of them on. -/
theorem restarts_folders (m : List α) : Restarts sep .folders (After sep .folders {m}) := by
  intro e mem
  -- Another start further on is behind a separator of the text from here.
  have later {r : List α} (memR : r ∈ After sep .folders {m}) (shorter : r.length < e.length) :
      ∃ x, e = x ++ sep :: r := by
    obtain ⟨k, rfl⟩ := after_chain mem memR shorter.le
    obtain ⟨l, -, first⟩ := mem
    obtain ⟨l', closed, second⟩ := memR
    have front : l' = l ++ k := by
      have same := first.trans second.symm
      rw [← append_assoc] at same
      exact (append_cancel_right same).symm
    have closed : Ended sep k := Ended.of_append (front ▸ closed)
    rcases eq_nil_or_concat' k with rfl | ⟨x, a, rfl⟩
    · exact absurd shorter (Nat.lt_irrefl _)
    · rcases closed with empty | last
      · exact absurd empty (append_ne_nil_of_right_ne_nil _ (cons_ne_nil _ _))
      · rw [getLast?_concat, Option.some.injEq] at last
        exact ⟨x, by rw [last, append_assoc]; rfl⟩
  have cut : e = e.takeWhile (· ≠ sep) ++ e.dropWhile (· ≠ sep) :=
    takeWhile_append_dropWhile.symm
  have before : sep ∉ e.takeWhile (· ≠ sep) := fun inside => by
    simpa using mem_takeWhile_imp inside
  rw [extend]
  cases found : e.dropWhile (· ≠ sep) with
  | nil =>
    refine ⟨fun e' none_ => absurd none_ (some_ne_none e').symm, fun _ r memR => ?_⟩
    by_contra shorter
    obtain ⟨x, whole⟩ := later memR (Nat.lt_of_not_le shorter)
    rw [found, append_nil] at cut
    rw [← cut, whole] at before
    exact before (mem_append_right _ mem_cons_self)
  | cons a rest =>
    have isSep : a = sep := by
      have := head?_dropWhile_not (fun b => decide (b ≠ sep)) e
      rw [found] at this
      simpa using this
    rw [found, isSep] at cut
    refine ⟨fun e' is => ?_, fun none_ => absurd none_ (some_ne_none rest)⟩
    obtain rfl := Option.some.inj is
    have lengths := congrArg List.length cut
    rw [length_append, length_cons] at lengths
    refine ⟨?_, by omega, fun r memR shorter => ?_⟩
    · obtain ⟨l, closed, first⟩ := mem
      refine ⟨l ++ (e.takeWhile (· ≠ sep) ++ [sep]), .inr (by simp), ?_⟩
      rw [append_assoc, append_assoc]
      exact (congrArg (l ++ ·) cut.symm).trans first
    · obtain ⟨x, whole⟩ := later memR shorter
      have other := cut.symm.trans whole
      rcases append_eq_append_iff.mp other with ⟨k, -, tail⟩ | ⟨k, front, tail⟩
      · have further := congrArg List.length tail
        rw [length_append, length_cons, length_cons] at further
        omega
      · cases k with
        | nil =>
          obtain ⟨-, same⟩ := List.cons.inj tail
          rw [same]
        | cons b k =>
          obtain ⟨isSep', -⟩ := List.cons.inj tail
          refine absurd ?_ before
          rw [front, ← isSep']
          exact mem_append_right _ mem_cons_self

theorem restarts_after (crosses : w.crossing = true) (m : List α) :
    Restarts sep w (After sep w {m}) := by
  cases w with
  | literal a => exact absurd crosses Bool.false_ne_true
  | one test => exact absurd crosses Bool.false_ne_true
  | run => exact absurd crosses Bool.false_ne_true
  | folders => exact restarts_folders m
  | deep =>
    intro e mem
    cases e with
    | nil => exact ⟨fun e' none_ => absurd none_ (some_ne_none e').symm,
        fun _ r _ => Nat.zero_le _⟩
    | cons a e =>
      refine ⟨fun e' is => ?_, fun none_ => absurd none_ (some_ne_none e)⟩
      obtain rfl := Option.some.inj is
      refine ⟨?_, Nat.lt_succ_self _, fun r _ shorter => Nat.le_of_lt_succ shorter⟩
      obtain ⟨l, -, first⟩ := mem
      exact ⟨l ++ [a], trivial, by rw [append_assoc]; exact first⟩

/-! ### The invariant -/

/-- What a run that has taken in all before `t` reaches by taking in more. -/
def Later (sep : α) (p : List (Wildcard α)) (t r : List α) : Prop :=
  ∃ l s, l ≠ [] ∧ t = l ++ s ∧ sep ∉ l ∧ Reach sep p s r

/-- Where a search is in the group of tokens behind the last crossing wildcard begun: of the places
that wildcard can leave, those before `cur` come to nothing, and the tokens `done` lead from `cur` to
the text left. -/
structure InGroup (sep : α) (answer : Prop) (s : Search α) (starts : Set (List α))
    (group done : List (Wildcard α)) (cur : List α) : Prop where
  answers : answer ↔ Leftmost sep group starts
  cut : group = done ++ s.pattern
  plain : ∀ w ∈ done, w.crossing = false
  chain : ∀ e ∈ starts, ∀ r ∈ starts, r.length ≤ e.length → ∃ k, e = k ++ r
  here : cur ∈ starts
  dead : ∀ e ∈ starts, cur.length < e.length → ∀ r, ¬Reach sep group e r
  leads : Leads sep done cur s.text
  first : s.deepStar = none → ∀ e ∈ starts, cur.length ≤ e.length
  restarts : ∀ d, s.deepStar = some d →
    d.pattern = group ∧ d.text ∈ starts ∧ cur.length ≤ d.text.length ∧ Restarts sep d.kind starts

/-- No run begun in the group: one place to be. -/
structure NoRun (sep : α) (s : Search α) (group done : List (Wildcard α)) (cur : List α) : Prop where
  star : s.star = none ∨ ∃ d, s.deepStar = some d ∧ s.star = some ⟨group, cur, d.kind⟩
  single : ∀ w ∈ done, w.single = true
  only : ∀ r, Reach sep group cur r → Reach sep s.pattern s.text r

/-- A run begun in the group, and single tokens since: it may still take in more. -/
structure Running (sep : α) (s : Search α) (group done : List (Wildcard α)) (cur : List α)
    (front chunk : List (Wildcard α)) (from_ : List α) : Prop where
  parts : done = front ++ .run :: chunk
  single : ∀ w ∈ chunk, w.single = true
  star : s.star = some ⟨chunk ++ s.pattern, from_, .run⟩
  begun : Leads sep (front ++ [.run]) cur from_
  since : Leads sep chunk from_ s.text
  only : ∀ r, Reach sep group cur r →
    Reach sep s.pattern s.text r ∨ Later sep (chunk ++ s.pattern) from_ r

/-- The rest of the search gives the answer. -/
def Searching (sep : α) (answer : Prop) (s : Search α) : Prop :=
  ∃ starts group done cur, InGroup sep answer s starts group done cur ∧
    (NoRun sep s group done cur ∨ ∃ front chunk from_, Running sep s group done cur front chunk from_)

variable {answer : Prop} {s : Search α}

theorem searching_start (p : List (Wildcard α)) (t : List α) :
    Searching sep (Leftmost sep p {t}) ⟨p, t, none, none⟩ := by
  refine ⟨{t}, p, [], t, ⟨Iff.rfl, rfl, fun _ mem => absurd mem not_mem_nil, ?_, rfl, ?_, rfl,
    fun _ e mem => ?_, fun d none_ => absurd none_ (some_ne_none d).symm⟩,
    .inl ⟨.inl rfl, fun _ mem => absurd mem not_mem_nil, fun _ reach => reach⟩⟩
  · rintro e rfl r rfl -
    exact ⟨[], rfl⟩
  · rintro e rfl shorter
    exact absurd shorter (Nat.lt_irrefl _)
  · obtain rfl : e = t := mem
    exact Nat.le_refl _

namespace InGroup

section

variable (inGroup : InGroup sep answer s starts group done cur)

include inGroup

/-- Where the current start comes to nothing, so do all at least as long. -/
theorem dead_of_le (lost : ∀ r, ¬Reach sep group cur r) {e : List α} (mem : e ∈ starts)
    (le : cur.length ≤ e.length) (r : List α) : ¬Reach sep group e r := by
  rcases Nat.lt_or_eq_of_le le with longer | same
  · exact inGroup.dead e mem longer r
  · obtain ⟨k, rfl⟩ := inGroup.chain e mem cur inGroup.here le
    rw [length_append] at same
    obtain rfl := eq_nil_of_length_eq_zero (show k.length = 0 by omega)
    exact lost r

/-- A new start, all longer ones lost. -/
theorem restart {next : Search α} (pattern : next.pattern = group) (here : next.text ∈ starts)
    (dead : ∀ e ∈ starts, next.text.length < e.length → ∀ r, ¬Reach sep group e r) {d : Saved α}
    (deep : next.deepStar = some d) (same : d.pattern = group) (mem : d.text ∈ starts)
    (le : next.text.length ≤ d.text.length) (restarts : Restarts sep d.kind starts)
    (star : next.star = none ∨ next.star = some ⟨group, next.text, d.kind⟩) :
    Searching sep answer next := by
  refine ⟨starts, group, [], next.text, ⟨inGroup.answers, pattern.symm,
    fun _ mem => absurd mem not_mem_nil, inGroup.chain, here, dead, rfl, fun none_ => ?_,
    fun d' is => ?_⟩, .inl ⟨star.imp_right fun is => ⟨d, deep, is⟩,
    fun _ mem => absurd mem not_mem_nil, fun r reach => pattern ▸ reach⟩⟩
  · exact absurd (deep.symm.trans none_) (some_ne_none d)
  · obtain rfl := Option.some.inj (deep.symm.trans is)
    exact ⟨same, mem, le, restarts⟩

/-- With the current start lost, the crossing wildcard takes in more, or nothing is found. -/
theorem fallBack (lost : ∀ r, ¬Reach sep group cur r) :
    match s.deepStar.bind (Saved.extended sep) with
    | some saved => Searching sep answer ⟨saved.pattern, saved.text, none, some saved⟩
    | none => ¬answer := by
  have nothing (all : ∀ e ∈ starts, cur.length ≤ e.length) : ¬answer := by
    rw [inGroup.answers, leftmost_iff]
    rintro ⟨m, ⟨e, mem, reach⟩, -⟩
    exact inGroup.dead_of_le lost mem (all e mem) m reach
  cases deep : s.deepStar with
  | none => exact nothing (inGroup.first deep)
  | some d =>
    obtain ⟨same, mem, le, restarts⟩ := inGroup.restarts d deep
    rw [bind_some, Saved.extended]
    cases more : extend sep d.kind d.text with
    | none => exact nothing fun e memE => le.trans ((restarts d.text mem).2 more e memE)
    | some e' =>
      obtain ⟨memNext, shorter, next⟩ := (restarts d.text mem).1 e' more
      refine inGroup.restart same memNext (fun e memE longer => ?_) rfl same memNext (Nat.le_refl _)
        restarts (.inl rfl)
      refine inGroup.dead_of_le lost memE (le.trans ?_)
      by_contra short
      exact absurd (next e memE (Nat.lt_of_not_le short)) (Nat.not_le.mpr longer)

end

end InGroup

/-- A run takes in more of what it is behind. -/
theorem Leads.more {front : List (Wildcard α)} {t l r : List α}
    (leads : Leads sep (front ++ [.run]) t (l ++ r)) (within : sep ∉ l) :
    Leads sep (front ++ [.run]) t r := by
  obtain ⟨m, first, y, _, rfl, spans, rfl⟩ := leads_append.mp leads
  refine leads_append.mpr ⟨_, first, y ++ l, r, (append_assoc _ _ _).symm, fun mem => ?_, rfl⟩
  exact (mem_append.mp mem).elim spans within

/-- **A mismatch.** -/
theorem retry_spec (searching : Searching sep answer s)
    (mismatch : ∀ r, ¬Reach sep s.pattern s.text r) : match s.retry sep with
    | .inl next => Searching sep answer next
    | .inr found => found = false ∧ ¬answer := by
  obtain ⟨starts, group, done, cur, inGroup, noRun | ⟨front, chunk, from_, running⟩⟩ := searching
  · have lost (r : List α) (reach : Reach sep group cur r) : False := mismatch r (noRun.only r reach)
    have back := inGroup.fallBack lost
    rw [Search.retry]
    rcases noRun.star with none_ | ⟨d, deep, is⟩
    · rw [none_, bind_none]
      split at back
      · exact back
      · exact ⟨rfl, back⟩
    · obtain ⟨same, mem, le, restarts⟩ := inGroup.restarts d deep
      rw [is, bind_some, Saved.extended]
      cases more : extend sep d.kind cur with
      | none =>
        split at back
        · exact back
        · exact ⟨rfl, back⟩
      | some e' =>
        obtain ⟨memNext, shorter, next⟩ := (restarts cur inGroup.here).1 e' more
        refine inGroup.restart rfl memNext (fun e memE longer => ?_) deep same mem
          (shorter.le.trans le) restarts (.inr rfl)
        refine inGroup.dead_of_le lost memE ?_
        by_contra short
        exact absurd (next e memE (Nat.lt_of_not_le short)) (Nat.not_le.mpr longer)
  · rw [Search.retry, running.star, bind_some, Saved.extended]
    dsimp only
    have only (r : List α) (reach : Reach sep group cur r) :=
      (running.only r reach).resolve_left (mismatch r)
    have stuck (none_ : extend sep .run from_ = none) (r : List α) : ¬Reach sep group cur r := by
      intro reach
      obtain ⟨l, rest, some_, rfl, within, -⟩ := only r reach
      obtain ⟨a, l, rfl⟩ := exists_cons_of_ne_nil some_
      rw [cons_append, extend] at none_
      split at none_
      next isSep =>
        exact within (isSep ▸ mem_cons_self)
      · exact some_ne_none _ none_
    cases more : extend sep .run from_ with
    | none =>
      have back := inGroup.fallBack (stuck more)
      split at back
      · exact back
      · exact ⟨rfl, back⟩
    | some t =>
      obtain ⟨a, rfl, apart⟩ : ∃ a, from_ = a :: t ∧ a ≠ sep := by
        cases from_ with
        | nil => exact absurd more (some_ne_none t).symm
        | cons a from_ =>
          rw [extend] at more
          split at more
          · exact absurd more (some_ne_none t).symm
          next apart =>
            exact ⟨a, by rw [Option.some.inj more], apart⟩
      have begun : Leads sep (front ++ [.run]) cur t :=
        Leads.more (l := [a]) running.begun fun mem => apart (mem_singleton.mp mem).symm
      refine ⟨starts, group, front ++ [.run], cur, ⟨inGroup.answers, ?_, fun w mem => ?_, inGroup.chain,
        inGroup.here, inGroup.dead, begun, inGroup.first, inGroup.restarts⟩,
        .inr ⟨front, [], t, rfl, fun _ mem => absurd mem not_mem_nil, rfl, begun, rfl,
          fun r reach => ?_⟩⟩
      · rw [inGroup.cut, running.parts]
        simp
      · refine inGroup.plain w ?_
        rw [running.parts]
        rcases mem_append.mp mem with mem | mem
        · exact mem_append_left _ mem
        · exact mem_append_right _ (mem_singleton.mp mem ▸ mem_cons_self)
      · obtain ⟨l, rest, some_, cut, within, reach⟩ := only r reach
        obtain ⟨b, l, rfl⟩ := exists_cons_of_ne_nil some_
        obtain ⟨-, cut⟩ := List.cons.inj cut
        cases l with
        | nil =>
          obtain rfl : t = rest := cut
          exact .inl reach
        | cons c l =>
          exact .inr ⟨c :: l, rest, cons_ne_nil _ _, cut,
            fun mem => within (mem_cons_of_mem _ mem), reach⟩

/-! ### Rounds -/

section

variable (inGroup : InGroup sep answer s starts group done cur)

include inGroup

/-- What some start reaches the current one reaches, or it is reached from further on. -/
theorem InGroup.furthest {e r : List α} (mem : e ∈ starts) (reach : Reach sep group e r) :
    Reach sep group cur r ∨ ∃ k v, s.text = k ++ v ∧ Reach sep s.pattern v r := by
  have notLonger : e.length ≤ cur.length := by
    by_contra longer
    exact inGroup.dead e mem (Nat.lt_of_not_le longer) r reach
  obtain ⟨k, cut⟩ := inGroup.chain cur inGroup.here e mem notLonger
  rw [inGroup.cut] at reach ⊢
  exact inGroup.leads.exchange inGroup.plain cut reach

theorem InGroup.reaches {r : List α} (reach : Reach sep s.pattern s.text r) :
    Reach sep group cur r := by
  rw [inGroup.cut]
  exact (reach_append inGroup.plain).mpr ⟨s.text, inGroup.leads, reach⟩

theorem InGroup.dropWhile :
    (group.dropWhile fun w => !w.crossing) = s.pattern.dropWhile fun w => !w.crossing := by
  rw [inGroup.cut, dropWhile_append]
  have all : (done.dropWhile fun w => !w.crossing) = [] :=
    dropWhile_eq_nil_iff.mpr fun w mem => by rw [inGroup.plain w mem]; rfl
  rw [all]
  rfl

end

/-- Before a crossing wildcard or at the end of the text, a run that takes in more only loses. -/
theorem Running.later_short {front chunk : List (Wildcard α)} {from_ r : List α}
    (running : Running sep s group done cur front chunk from_)
    (later : Later sep (chunk ++ s.pattern) from_ r) :
    ∃ u, u.length < s.text.length ∧ Reach sep s.pattern u r := by
  obtain ⟨l, rest, some_, cut, -, reach⟩ := later
  obtain ⟨u, leads, reach⟩ := (reach_append fun w mem =>
    not_crossing_of_single (running.single w mem)).mp reach
  have whole := running.since.length_of_single running.single
  have less := leads.length_of_single running.single
  have lengths := congrArg List.length cut
  rw [length_append] at lengths
  have positive := length_pos_of_ne_nil some_
  exact ⟨u, by omega, reach⟩

section

variable (searching : Searching sep answer s)

include searching

theorem searching_take {a : α} {rest : List α} (pattern : s.pattern = w :: p)
    (text : s.text = a :: rest) (single : w.single = true) (takes : w.takes sep a = true) :
    Searching sep answer { s with pattern := p, text := rest } := by
  obtain ⟨starts, group, done, cur, inGroup, state⟩ := searching
  have one {q : List (Wildcard α)} {t : List α} (leads : Leads sep q t s.text) :
      Leads sep (q ++ [w]) t rest :=
    leads_append.mpr ⟨s.text, leads, [a], rest, text, (spans_single single).mpr ⟨a, rfl, takes⟩, rfl⟩
  have behind {r : List α} (reach : Reach sep s.pattern s.text r) : Reach sep p rest r := by
    rw [pattern, text] at reach
    obtain ⟨l, t, cut, spans, reach⟩ := (reach_cons (not_crossing_of_single single)).mp reach
    obtain ⟨b, rfl, -⟩ := (spans_single single).mp spans
    obtain ⟨-, rfl⟩ := List.cons.inj cut
    exact reach
  have within {q : List (Wildcard α)} (all : ∀ w ∈ q, w.single = true) :
      ∀ w' ∈ q ++ [w], w'.single = true := by
    intro w' mem
    rcases mem_append.mp mem with mem | mem
    · exact all w' mem
    · exact mem_singleton.mp mem ▸ single
  refine ⟨starts, group, done ++ [w], cur, ⟨inGroup.answers, ?_, fun w' mem => ?_, inGroup.chain,
    inGroup.here, inGroup.dead, one inGroup.leads, inGroup.first, inGroup.restarts⟩, ?_⟩
  · rw [inGroup.cut, pattern, append_assoc]
    rfl
  · rcases mem_append.mp mem with mem | mem
    · exact inGroup.plain w' mem
    · exact mem_singleton.mp mem ▸ not_crossing_of_single single
  · rcases state with noRun | ⟨front, chunk, from_, running⟩
    · exact .inl ⟨noRun.star, within noRun.single, fun r reach => behind (noRun.only r reach)⟩
    · have shift : chunk ++ s.pattern = (chunk ++ [w]) ++ p := by
        rw [pattern, append_assoc]
        rfl
      refine .inr ⟨front, chunk ++ [w], from_, ?_, within running.single, shift ▸ running.star,
        running.begun, one running.since, fun r reach => ?_⟩
      · rw [running.parts, append_assoc]
        rfl
      · exact (running.only r reach).imp behind fun later => shift ▸ later

theorem searching_run (pattern : s.pattern = .run :: p) :
    Searching sep answer (s.begin .run p) := by
  obtain ⟨starts, group, done, cur, inGroup, state⟩ := searching
  -- An earlier run has nothing left to find that this one does not.
  have only (r : List α) (reach : Reach sep group cur r) : Reach sep (.run :: p) s.text r := by
    rcases state with noRun | ⟨front, chunk, from_, running⟩
    · exact pattern ▸ noRun.only r reach
    · rcases running.only r reach with here | ⟨l, rest, -, cut, within, reach⟩
      · exact pattern ▸ here
      · exact running.since.absorb running.single cut within (pattern ▸ reach)
  have begun : Leads sep (done ++ [.run]) cur s.text :=
    leads_append.mpr ⟨s.text, inGroup.leads, [], s.text, rfl, not_mem_nil, rfl⟩
  refine ⟨starts, group, done ++ [.run], cur, ⟨inGroup.answers, ?_, fun w mem => ?_, inGroup.chain,
    inGroup.here, inGroup.dead, begun, inGroup.first, inGroup.restarts⟩, .inr ⟨done, [], s.text, rfl,
      fun _ mem => absurd mem not_mem_nil, rfl, begun, rfl, fun r reach => ?_⟩⟩
  · rw [inGroup.cut, pattern, append_assoc]
    rfl
  · rcases mem_append.mp mem with mem | mem
    · exact inGroup.plain w mem
    · exact mem_singleton.mp mem ▸ rfl
  · obtain ⟨l, rest, cut, within, reach⟩ := (reach_cons rfl).mp (only r reach)
    cases l with
    | nil => exact .inl ((show s.text = rest from cut) ▸ reach)
    | cons a l => exact .inr ⟨a :: l, rest, cons_ne_nil _ _, cut, within, reach⟩

/-- **A crossing wildcard begins where all that is before it ends leftmost.** -/
theorem Searching.crossing (pattern : s.pattern = w :: p) (crosses : w.crossing = true) :
    answer ↔ Leftmost sep p (After sep w {s.text}) := by
  obtain ⟨starts, group, done, cur, inGroup, state⟩ := searching
  have dropped : (group.dropWhile fun w => !w.crossing) = w :: p := by
    rw [inGroup.dropWhile, pattern, dropWhile_cons, crosses]
    rfl
  have reached : Reach sep group cur s.text :=
    inGroup.reaches (pattern ▸ (reach_crossing crosses).mpr rfl)
  have longest : ∀ e ∈ starts, ∀ r, Reach sep group e r → r.length ≤ s.text.length := by
    intro e mem r reach
    rcases inGroup.furthest mem reach with reach | ⟨k, v, cut, reach⟩
    · rcases state with noRun | ⟨front, chunk, from_, running⟩
      · have := (reach_crossing crosses).mp (pattern ▸ noRun.only r reach)
        exact (congrArg List.length this).ge
      · rcases running.only r reach with here | later
        · have := (reach_crossing crosses).mp (pattern ▸ here)
          exact (congrArg List.length this).ge
        · obtain ⟨u, shorter, reach⟩ := running.later_short later
          rw [pattern] at reach
          obtain rfl := (reach_crossing crosses).mp reach
          exact shorter.le
    · obtain rfl := (reach_crossing crosses).mp (pattern ▸ reach)
      rw [cut, length_append]
      exact Nat.le_add_left _ _
  rw [inGroup.answers, leftmost_iff, dropped]
  constructor
  · rintro ⟨m, ⟨e, mem, reach⟩, most, leftmost⟩
    have shorter : e.length ≤ cur.length := by
      by_contra longer
      exact inGroup.dead e mem (Nat.lt_of_not_le longer) m reach
    obtain ⟨k, cut⟩ := inGroup.chain cur inGroup.here e mem shorter
    obtain ⟨l, rest⟩ := reach.suffix
    obtain ⟨x, same⟩ := rest_of_length_le inGroup.leads.suffix
      ⟨k ++ l, by rw [cut, rest, append_assoc]⟩ (longest e mem m reach)
    have lengths := congrArg List.length same
    rw [length_append] at lengths
    have atLeast := most cur inGroup.here _ reached
    obtain rfl := eq_nil_of_length_eq_zero (show x.length = 0 by omega)
    exact (show s.text = m from same) ▸ leftmost
  · exact fun leftmost => ⟨s.text, ⟨cur, inGroup.here, reached⟩, longest, leftmost⟩

theorem searching_crossing (pattern : s.pattern = w :: p) (crosses : w.crossing = true) :
    Searching sep answer (s.begin w p) := by
  have deep : (s.begin w p).deepStar = some ⟨p, s.text, w⟩ := by
    rw [Search.begin, crosses]
    rfl
  refine ⟨After sep w {s.text}, p, [], s.text, ⟨searching.crossing pattern crosses, rfl,
    fun _ mem => absurd mem not_mem_nil, fun e mem r memR le => after_chain mem memR le,
    mem_after_self crosses _, fun e mem longer => ?_, rfl, fun none_ => ?_, fun d is => ?_⟩,
    .inl ⟨.inr ⟨_, deep, rfl⟩, fun _ mem => absurd mem not_mem_nil, fun _ reach => reach⟩⟩
  · exact absurd longer (Nat.not_lt.mpr (length_le_of_mem_after mem))
  · exact absurd (deep.symm.trans none_) (some_ne_none _)
  · obtain rfl := Option.some.inj (deep.symm.trans is)
    exact ⟨rfl, mem_after_self crosses _, Nat.le_refl _, restarts_after crosses _⟩

end

/-- With nothing left of the text, only wildcards may be left of the pattern. -/
theorem leftmost_nil : Leftmost sep p {[]} ↔ (p.all fun w => !w.single) = true := by
  induction p with
  | nil => exact ⟨fun _ => rfl, fun _ => rfl⟩
  | cons w p ih =>
    have wild (isWild : w.single = false) : After sep w {[]} = {[]} := by
      ext r
      constructor
      · rintro ⟨l, -, nothing⟩
        exact (append_eq_nil_iff.mp nothing).2
      · rintro rfl
        refine ⟨[], ?_, rfl⟩
        cases w with
        | run => exact not_mem_nil
        | deep => exact trivial
        | folders => exact .inl rfl
        | literal a => exact absurd isWild (Bool.false_ne_true ∘ Eq.symm)
        | one test => exact absurd isWild (Bool.false_ne_true ∘ Eq.symm)
    rw [Leftmost, all_cons]
    cases single : w.single with
    | true =>
      rw [not_crossing_of_single single]
      constructor
      · intro leftmost
        obtain ⟨r, ⟨l, spans, nothing⟩, -⟩ := leftmost.matches_
        obtain ⟨a, rfl, -⟩ := (spans_single single).mp spans
        exact absurd nothing (cons_ne_nil _ _)
      · exact fun never => absurd never Bool.false_ne_true
    | false =>
      rw [wild single, Bool.not_false, Bool.true_and, ← ih]
      split
      · constructor
        · rintro ⟨m, rfl, -, leftmost⟩
          exact wild single ▸ leftmost
        · intro leftmost
          refine ⟨[], rfl, ?_, (wild single).symm ▸ leftmost⟩
          rintro r rfl
          exact Nat.le_refl _
      · exact Iff.rfl

theorem Searching.ended (searching : Searching sep answer s) (text : s.text = []) :
    (s.pattern.all fun w => !w.single) = true ↔ answer := by
  obtain ⟨starts, group, done, cur, inGroup, state⟩ := searching
  have union (r : List α) : (∃ e ∈ starts, Reach sep group e r) ↔ Reach sep s.pattern [] r := by
    constructor
    · rintro ⟨e, mem, reach⟩
      rcases inGroup.furthest mem reach with reach | ⟨k, v, cut, reach⟩
      · rcases state with noRun | ⟨front, chunk, from_, running⟩
        · exact text ▸ noRun.only r reach
        · rcases running.only r reach with here | later
          · exact text ▸ here
          · obtain ⟨u, shorter, -⟩ := running.later_short later
            rw [text] at shorter
            exact absurd shorter (Nat.not_lt_zero _)
      · rw [text] at cut
        exact (append_eq_nil_iff.mp cut.symm).2 ▸ reach
    · exact fun reach => ⟨cur, inGroup.here, inGroup.reaches (text.symm ▸ reach)⟩
  have bound (m : List α) : (∀ e ∈ starts, ∀ r, Reach sep group e r → r.length ≤ m.length) ↔
      ∀ r, Reach sep s.pattern [] r → r.length ≤ m.length := by
    constructor
    · intro all r reach
      obtain ⟨e, mem, reach⟩ := (union r).mpr reach
      exact all e mem r reach
    · exact fun all e mem r reach => all r ((union r).mp ⟨e, mem, reach⟩)
  rw [← @leftmost_nil _ _ sep, inGroup.answers, leftmost_iff, leftmost_iff, inGroup.dropWhile]
  simp only [union, bound, Set.mem_singleton_iff, exists_eq_left, forall_eq]

/-- **One round.** -/
theorem step_spec (searching : Searching sep answer s) : match s.step sep with
    | .inl next => Searching sep answer next
    | .inr found => found = true ↔ answer := by
  have missed (mismatch : ∀ r, ¬Reach sep s.pattern s.text r) :
      match s.retry sep with
      | .inl next => Searching sep answer next
      | .inr found => found = true ↔ answer := by
    have spec := retry_spec searching mismatch
    split at spec
    · exact spec
    · exact iff_of_false (by rw [spec.1]; exact Bool.false_ne_true) spec.2
  rw [Search.step]
  cases text : s.text with
  | nil => exact searching.ended text
  | cons a rest =>
    cases pattern : s.pattern with
    | nil =>
      refine missed fun r reach => ?_
      rw [pattern, text] at reach
      exact absurd reach.1 (cons_ne_nil _ _)
    | cons w p =>
      dsimp only
      by_cases single : w.single = true
      · rw [if_pos single]
        by_cases takes : w.takes sep a = true
        · rw [if_pos takes]
          exact searching_take searching pattern text single takes
        · rw [if_neg takes]
          refine missed fun r reach => ?_
          rw [pattern, text] at reach
          obtain ⟨l, t, cut, spans, -⟩ := (reach_cons (not_crossing_of_single single)).mp reach
          obtain ⟨b, rfl, takesB⟩ := (spans_single single).mp spans
          obtain ⟨rfl, -⟩ := List.cons.inj cut
          exact takes takesB
      · rw [if_neg single]
        by_cases last : (w.isDeep && p.isEmpty) = true
        · obtain ⟨deep, none_⟩ := Bool.and_eq_true_iff.mp last
          obtain rfl := List.isEmpty_iff.mp none_
          cases w with
          | deep =>
            exact iff_of_true rfl ((searching.crossing pattern rfl).mpr
              ⟨s.text, trivial, append_nil _⟩)
          | literal b => exact absurd deep Bool.false_ne_true
          | one test => exact absurd deep Bool.false_ne_true
          | run => exact absurd deep Bool.false_ne_true
          | folders => exact absurd deep Bool.false_ne_true
        · rw [if_neg last]
          cases crosses : w.crossing with
          | true => exact searching_crossing searching pattern crosses
          | false =>
            cases w with
            | run => exact searching_run searching pattern
            | literal b => exact absurd rfl single
            | one test => exact absurd rfl single
            | deep => exact absurd crosses (Bool.false_ne_true ∘ Eq.symm)
            | folders => exact absurd crosses (Bool.false_ne_true ∘ Eq.symm)

/-! ### Ending -/

/-- The saved patterns are no longer than the whole pattern and no shorter than what is left of it,
the crossing wildcard's the longest; the saved texts are no longer than the whole text. -/
structure SearchFits (width height : Nat) (s : Search α) : Prop where
  pattern : s.pattern.length ≤ width
  text : s.text.length ≤ height
  star : ∀ v, s.star = some v →
    s.pattern.length ≤ v.pattern.length ∧ v.pattern.length ≤ width ∧ v.text.length ≤ height
  deep : ∀ d, s.deepStar = some d →
    s.pattern.length ≤ d.pattern.length ∧ d.pattern.length ≤ width ∧ d.text.length ≤ height
  nested : ∀ v d, s.star = some v → s.deepStar = some d → v.pattern.length ≤ d.pattern.length

/-- The pattern of a saved wildcard and the rest of its text, as two digits; none is the most. -/
def savedRank (width : Nat) : Option (Saved α) → Nat × Nat
  | none => (width + 1, 0)
  | some v => (v.pattern.length, v.text.length)

/-- A number that every round makes less: the digits of the crossing wildcard, of the last one, and
the pattern left. -/
def searchRank (width height : Nat) (s : Search α) : Nat :=
  let deep := savedRank width s.deepStar
  let star := savedRank width s.star
  (((deep.1 * (height + 1) + deep.2) * (width + 2) + star.1) * (height + 1) + star.2) * (width + 2) +
    s.pattern.length

theorem digit_lt {high high' low base : Nat} (less : high < high') (small : low < base)
    (low' : Nat) :
    high * base + low < high' * base + low' := by
  have next := Nat.mul_le_mul_right base (Nat.succ_le_of_lt less)
  rw [Nat.succ_mul] at next
  omega

omit [DecidableEq α] in
theorem SearchFits.star_digits {width height : Nat} (fits : SearchFits width height s) :
    (savedRank width s.star).1 < width + 2 ∧ (savedRank width s.star).2 < height + 1 ∧
      s.pattern.length ≤ (savedRank width s.star).1 := by
  have pattern := fits.pattern
  cases star : s.star with
  | none =>
    dsimp only [savedRank]
    omega
  | some v =>
    have := fits.star v star
    dsimp only [savedRank]
    omega

omit [DecidableEq α] in
theorem SearchFits.deep_digits {width height : Nat} (fits : SearchFits width height s) :
    (savedRank width s.deepStar).1 < width + 2 ∧ (savedRank width s.deepStar).2 < height + 1 ∧
      s.pattern.length ≤ (savedRank width s.deepStar).1 := by
  have pattern := fits.pattern
  cases deep : s.deepStar with
  | none =>
    dsimp only [savedRank]
    omega
  | some d =>
    have := fits.deep d deep
    dsimp only [savedRank]
    omega

theorem length_extend_lt {t t' : List α} (more : extend sep w t = some t') :
    t'.length < t.length := by
  cases w with
  | literal a => exact absurd more (some_ne_none t').symm
  | one test => exact absurd more (some_ne_none t').symm
  | run =>
    cases t with
    | nil => exact absurd more (some_ne_none t').symm
    | cons a t =>
      rw [extend] at more
      split at more
      · exact absurd more (some_ne_none t').symm
      · rw [← Option.some.inj more]
        exact Nat.lt_succ_self _
  | deep =>
    cases t with
    | nil => exact absurd more (some_ne_none t').symm
    | cons a t =>
      rw [← Option.some.inj more]
      exact Nat.lt_succ_self _
  | folders =>
    rw [extend] at more
    have shorter := (dropWhile_sublist (l := t) (p := fun a => decide (a ≠ sep))).length_le
    split at more
    · exact absurd more (some_ne_none t').symm
    next a rest found =>
      rw [found, length_cons, Option.some.inj more] at shorter
      exact shorter

theorem extended_some {v v' : Saved α} (more : v.extended sep = some v') :
    v'.pattern = v.pattern ∧ v'.kind = v.kind ∧ v'.text.length < v.text.length := by
  obtain ⟨t, found, rfl⟩ := map_eq_some_iff.mp more
  exact ⟨rfl, rfl, length_extend_lt found⟩

theorem retry_fits {width height : Nat} (fits : SearchFits width height s) {next : Search α}
    (retried : s.retry sep = .inl next) :
    SearchFits width height next ∧ searchRank width height next < searchRank width height s := by
  rw [Search.retry] at retried
  split at retried
  next saved found =>
    obtain rfl := Sum.inl.inj retried
    obtain ⟨v, star, more⟩ := bind_eq_some_iff.mp found
    obtain ⟨same, -, shorter⟩ := extended_some more
    obtain ⟨-, wide, high⟩ := fits.star v star
    constructor
    · refine ⟨same ▸ wide, shorter.le.trans high, fun v' is => ?_, fun d deep => ?_,
        fun v' d is deep => ?_⟩
      · obtain rfl := Option.some.inj is
        exact ⟨Nat.le_refl _, same ▸ wide, shorter.le.trans high⟩
      · exact ⟨same ▸ fits.nested v d star deep, (fits.deep d deep).2⟩
      · obtain rfl := Option.some.inj is
        exact same ▸ fits.nested v d star deep
    · rw [searchRank, searchRank, star]
      dsimp only [savedRank]
      rw [same]
      exact digit_lt (Nat.add_lt_add_left shorter _) (by omega) _
  · split at retried
    next saved found =>
      obtain rfl := Sum.inl.inj retried
      obtain ⟨d, deep, more⟩ := bind_eq_some_iff.mp found
      obtain ⟨same, -, shorter⟩ := extended_some more
      obtain ⟨-, wide, high⟩ := fits.deep d deep
      constructor
      · refine ⟨same ▸ wide, shorter.le.trans high, fun v none_ => ?_, fun d' is => ?_,
          fun v d none_ => ?_⟩
        · exact absurd none_ (some_ne_none v).symm
        · obtain rfl := Option.some.inj is
          exact ⟨Nat.le_refl _, same ▸ wide, shorter.le.trans high⟩
        · exact absurd none_ (some_ne_none v).symm
      · rw [searchRank, searchRank, deep]
        dsimp only [savedRank]
        rw [same]
        exact digit_lt (digit_lt (digit_lt (Nat.add_lt_add_left shorter _) (by omega) _)
          (Nat.succ_pos _) _) (by omega) _
    · exact absurd retried Sum.inr_ne_inl

theorem step_fits {width height : Nat} (fits : SearchFits width height s) {next : Search α}
    (stepped : s.step sep = .inl next) :
    SearchFits width height next ∧ searchRank width height next < searchRank width height s := by
  rw [Search.step] at stepped
  split at stepped
  · exact absurd stepped Sum.inr_ne_inl
  next a rest text =>
    split at stepped
    · exact retry_fits fits stepped
    next w p pattern =>
      have less : p.length < s.pattern.length := by
        rw [pattern]
        exact Nat.lt_succ_self _
      have width_ := fits.pattern
      split at stepped
      · split at stepped
        · obtain rfl := Sum.inl.inj stepped
          refine ⟨⟨less.le.trans width_, ?_, fun v star => ?_, fun d deep => ?_, fits.nested⟩, ?_⟩
          · have := fits.text
            rw [text, length_cons] at this
            exact Nat.le_of_succ_le this
          · exact ⟨less.le.trans (fits.star v star).1, (fits.star v star).2⟩
          · exact ⟨less.le.trans (fits.deep d deep).1, (fits.deep d deep).2⟩
          · exact Nat.add_lt_add_left less _
        · exact retry_fits fits stepped
      · split at stepped
        · exact absurd stepped Sum.inr_ne_inl
        · obtain rfl := Sum.inl.inj stepped
          obtain ⟨-, -, starWide⟩ := fits.star_digits
          obtain ⟨-, -, deepWide⟩ := fits.deep_digits
          have text_ := fits.text
          cases crosses : w.crossing with
          | true =>
            have begun : s.begin w p = ⟨p, s.text, some ⟨p, s.text, w⟩, some ⟨p, s.text, w⟩⟩ := by
              rw [Search.begin, crosses]
              rfl
            rw [begun]
            constructor
            · refine ⟨less.le.trans width_, text_, fun v is => ?_, fun d is => ?_, fun v d is is' => ?_⟩
              · obtain rfl := Option.some.inj is
                exact ⟨Nat.le_refl _, less.le.trans width_, text_⟩
              · obtain rfl := Option.some.inj is
                exact ⟨Nat.le_refl _, less.le.trans width_, text_⟩
              · obtain rfl := Option.some.inj is
                obtain rfl := Option.some.inj is'
                exact Nat.le_refl _
            · rw [searchRank, searchRank]
              dsimp only [savedRank]
              exact digit_lt (digit_lt (digit_lt (digit_lt (less.trans_le deepWide) (by omega) _)
                (by omega) _) (by omega) _) (by omega) _
          | false =>
            have begun : s.begin w p = ⟨p, s.text, some ⟨p, s.text, w⟩, s.deepStar⟩ := by
              rw [Search.begin, crosses]
              rfl
            rw [begun]
            constructor
            · refine ⟨less.le.trans width_, text_, fun v is => ?_, fun d deep => ?_,
                fun v d is deep => ?_⟩
              · obtain rfl := Option.some.inj is
                exact ⟨Nat.le_refl _, less.le.trans width_, text_⟩
              · exact ⟨less.le.trans (fits.deep d deep).1, (fits.deep d deep).2⟩
              · obtain rfl := Option.some.inj is
                exact less.le.trans (fits.deep d deep).1
            · rw [searchRank, searchRank]
              dsimp only [savedRank]
              exact digit_lt (digit_lt (Nat.add_lt_add_left (less.trans_le starWide) _) (by omega) _)
                (by omega) _

/-- Rounds that are enough for a pattern and a text. -/
def searchRounds (width height : Nat) : Nat :=
  (((width + 2) * (height + 1) * (width + 2)) * (height + 1)) * (width + 2)

/-- **The search ends, and finds exactly the leftmost matches.** -/
theorem search_spec (p : List (Wildcard α)) (t : List α) {width : Nat} (fit : p.length ≤ width) :
    ∃ found, Search.runFor sep (searchRounds width t.length) ⟨p, t, none, none⟩ = some found ∧
      (found = true ↔ Leftmost sep p {t}) := by
  have runs (n : Nat) : ∀ s : Search α, Searching sep (Leftmost sep p {t}) s →
      SearchFits width t.length s → searchRank width t.length s < n →
      ∃ found, s.runFor sep n = some found ∧ (found = true ↔ Leftmost sep p {t}) := by
    induction n with
    | zero => exact fun s _ _ less => absurd less (Nat.not_lt_zero _)
    | succ n ih =>
      intro s searching fits less
      have spec := step_spec searching
      rw [Search.runFor]
      cases stepped : s.step sep with
      | inr found =>
        rw [stepped] at spec
        exact ⟨found, rfl, spec⟩
      | inl next =>
        rw [stepped] at spec
        obtain ⟨fits, smaller⟩ := step_fits fits stepped
        exact ih next spec fits (by omega)
  refine runs _ _ (searching_start p t) ⟨fit, Nat.le_refl _, fun v none_ => ?_,
    fun d none_ => ?_, fun v d none_ => ?_⟩ ?_
  · exact absurd none_ (some_ne_none v).symm
  · exact absurd none_ (some_ne_none d).symm
  · exact absurd none_ (some_ne_none v).symm
  · have below {high bound low base : Nat} (less : high < bound) (small : low < base) :
        high * base + low < bound * base := digit_lt less small 0
    rw [searchRank, searchRounds]
    dsimp only [savedRank]
    exact below (below (below (below (by omega) (by omega)) (by omega)) (by omega)) (by omega)

end Search

end Microide.Lib
