/-
Patterns with wildcards.

A pattern is a list of tokens, and its language the lists that can be cut into one part a token.
Some wildcards stop at a separator, others cross it. Read from the left, a pattern can also be
required to start each crossing wildcard at the leftmost place where what is before it can end:
that is what a search finds which never goes back behind a crossing wildcard.

**Main results.** `Leads.absorb`: a run takes in what a later start would leave; `Reach.exchange`: a
later start does no better; `leftmost_iff_matches`: where crossing wildcards that stand for whole
parts begin at parts, the leftmost reading finds every match.
-/

import Mathlib.Data.List.Basic
import Mathlib.Order.WellFounded

namespace Microide.Lib

open List

inductive Wildcard (α : Type) where
  | literal (a : α)
  /-- One element that passes a test and is not the separator. -/
  | one (test : α → Bool)
  /-- Any list without the separator. -/
  | run
  /-- Any list. -/
  | deep
  /-- Nothing, or any list that ends in the separator. -/
  | folders

namespace Wildcard

variable {α : Type} [DecidableEq α]

/-- It may take in the separator in any number. -/
def crossing : Wildcard α → Bool
  | deep => true
  | folders => true
  | _ => false

/-- It takes in whatever is left. -/
def isDeep : Wildcard α → Bool
  | deep => true
  | _ => false

/-- It takes one element. -/
def single : Wildcard α → Bool
  | literal _ => true
  | one _ => true
  | _ => false

/-- The token takes the one element. -/
def takes (sep : α) : Wildcard α → α → Bool
  | literal b, a => a = b
  | one test, a => a ≠ sep && test a
  | _, _ => false

/-- The lists a token stands for. -/
def Spans (sep : α) : Wildcard α → List α → Prop
  | run, l => sep ∉ l
  | deep, _ => True
  | folders, l => l = [] ∨ l.getLast? = some sep
  | w, l => ∃ a, l = [a] ∧ w.takes sep a = true

end Wildcard

section Language

variable {α : Type} [DecidableEq α] (sep : α)

/-- The pattern matches the list down to a rest of it. -/
def Leads : List (Wildcard α) → List α → List α → Prop
  | [], t, u => t = u
  | w :: p, t, u => ∃ l s, t = l ++ s ∧ w.Spans sep l ∧ Leads p s u

/-- The language of a pattern. -/
def Matches (p : List (Wildcard α)) (t : List α) : Prop := Leads sep p t []

/-- The rests behind a token, from any of the starts. -/
def After (w : Wildcard α) (starts : Set (List α)) : Set (List α) :=
  {r | ∃ l, w.Spans sep l ∧ l ++ r ∈ starts}

/-- The pattern matches from one of the starts, each crossing wildcard begun at the leftmost place
where what is before it can end. -/
def Leftmost : List (Wildcard α) → Set (List α) → Prop
  | [], starts => [] ∈ starts
  | w :: p, starts =>
    if w.crossing then
      ∃ m ∈ starts, (∀ r ∈ starts, r.length ≤ m.length) ∧ Leftmost p (After sep w {m})
    else Leftmost p (After sep w starts)

/-- The rests at which a start reaches the next crossing wildcard, or its own end with the
pattern's. -/
def Reach : List (Wildcard α) → List α → List α → Prop
  | [], t, r => t = [] ∧ r = []
  | w :: p, t, r =>
    if w.crossing then t = r else ∃ l s, t = l ++ s ∧ w.Spans sep l ∧ Reach p s r

variable {sep} {w : Wildcard α} {p q : List (Wildcard α)} {t u r : List α}

/-! ### Single tokens -/

theorem spans_single (single : w.single = true) {l : List α} :
    w.Spans sep l ↔ ∃ a, l = [a] ∧ w.takes sep a = true := by
  cases w with
  | literal b => exact Iff.rfl
  | one test => exact Iff.rfl
  | run => exact absurd single Bool.false_ne_true
  | deep => exact absurd single Bool.false_ne_true
  | folders => exact absurd single Bool.false_ne_true

omit [DecidableEq α] in
theorem not_crossing_of_single (single : w.single = true) : w.crossing = false := by
  cases w with
  | literal b => rfl
  | one test => rfl
  | run => rfl
  | deep => exact absurd single Bool.false_ne_true
  | folders => exact absurd single Bool.false_ne_true

/-- A token that takes an element other than the separator takes no separator. -/
theorem takes_apart {a b : α} (first : w.takes sep a = true) (second : w.takes sep b = true)
    (apart : a ≠ sep) : b ≠ sep := by
  cases w with
  | literal c =>
    rw [of_decide_eq_true second, ← of_decide_eq_true first]
    exact apart
  | one test => exact of_decide_eq_true (Bool.and_eq_true_iff.mp second).1
  | run => exact absurd first Bool.false_ne_true
  | deep => exact absurd first Bool.false_ne_true
  | folders => exact absurd first Bool.false_ne_true

theorem leads_append : Leads sep (p ++ q) t u ↔ ∃ s, Leads sep p t s ∧ Leads sep q s u := by
  induction p generalizing t with
  | nil => exact ⟨fun leads => ⟨t, rfl, leads⟩, fun ⟨s, same, leads⟩ => same ▸ leads⟩
  | cons w p ih =>
    constructor
    · rintro ⟨l, s, cut, spans, leads⟩
      obtain ⟨mid, first, second⟩ := ih.mp leads
      exact ⟨mid, ⟨l, s, cut, spans, first⟩, second⟩
    · rintro ⟨mid, ⟨l, s, cut, spans, first⟩, second⟩
      exact ⟨l, s, cut, spans, ih.mpr ⟨mid, first, second⟩⟩

/-- Single tokens take one element each. -/
theorem Leads.length_of_single (leads : Leads sep p t u) (single : ∀ w ∈ p, w.single = true) :
    t.length = p.length + u.length := by
  induction p generalizing t with
  | nil => rw [show t = u from leads, length_nil, Nat.zero_add]
  | cons w p ih =>
    obtain ⟨l, s, rfl, spans, leads⟩ := leads
    obtain ⟨a, rfl, -⟩ := (spans_single (single w mem_cons_self)).mp spans
    have rest := ih leads fun w mem => single w (mem_cons_of_mem _ mem)
    rw [length_append, length_singleton, length_cons]
    omega

theorem Leads.suffix (leads : Leads sep p t u) : ∃ l, t = l ++ u := by
  induction p generalizing t with
  | nil => exact ⟨[], leads⟩
  | cons w p ih =>
    obtain ⟨l, s, rfl, -, leads⟩ := leads
    obtain ⟨l', rfl⟩ := ih leads
    exact ⟨l ++ l', (append_assoc _ _ _).symm⟩

/-! ### Reaching -/

theorem reach_cons (plain : w.crossing = false) :
    Reach sep (w :: p) t r ↔ ∃ l s, t = l ++ s ∧ w.Spans sep l ∧ Reach sep p s r := by
  rw [Reach, plain, if_neg Bool.false_ne_true]

theorem reach_crossing (crosses : w.crossing = true) : Reach sep (w :: p) t r ↔ t = r := by
  rw [Reach, if_pos crosses]

theorem reach_append (plain : ∀ w ∈ q, w.crossing = false) :
    Reach sep (q ++ p) t r ↔ ∃ u, Leads sep q t u ∧ Reach sep p u r := by
  induction q generalizing t with
  | nil => exact ⟨fun reach => ⟨t, rfl, reach⟩, fun ⟨u, same, reach⟩ => same ▸ reach⟩
  | cons w q ih =>
    have ih := fun s => @ih s fun w mem => plain w (mem_cons_of_mem _ mem)
    rw [cons_append, reach_cons (plain w mem_cons_self)]
    constructor
    · rintro ⟨l, s, cut, spans, reach⟩
      obtain ⟨u, leads, reach⟩ := (ih s).mp reach
      exact ⟨u, ⟨l, s, cut, spans, leads⟩, reach⟩
    · rintro ⟨u, ⟨l, s, cut, spans, leads⟩, reach⟩
      exact ⟨l, s, cut, spans, (ih s).mpr ⟨u, leads, reach⟩⟩

theorem Reach.suffix (reach : Reach sep p t r) : ∃ l, t = l ++ r := by
  induction p generalizing t with
  | nil => exact ⟨[], by rw [reach.1, reach.2]; rfl⟩
  | cons w p ih =>
    cases crosses : w.crossing with
    | true => exact ⟨[], (reach_crossing crosses).mp reach⟩
    | false =>
      obtain ⟨l, s, rfl, -, reach⟩ := (reach_cons crosses).mp reach
      obtain ⟨l', rfl⟩ := ih reach
      exact ⟨l ++ l', (append_assoc _ _ _).symm⟩

/-- A leftmost match, group by group: the leftmost place reached, and what follows from there. -/
theorem leftmost_iff {starts : Set (List α)} :
    Leftmost sep p starts ↔ ∃ m, (∃ t ∈ starts, Reach sep p t m) ∧
      (∀ t ∈ starts, ∀ r, Reach sep p t r → r.length ≤ m.length) ∧
      match p.dropWhile fun w => !w.crossing with
      | [] => True
      | w :: rest => Leftmost sep rest (After sep w {m}) := by
  induction p generalizing starts with
  | nil =>
    constructor
    · intro here
      refine ⟨[], ⟨[], here, rfl, rfl⟩, fun t _ r reach => ?_, trivial⟩
      rw [reach.2]
    · rintro ⟨m, ⟨t, mem, empty, -⟩, -⟩
      exact (empty ▸ mem : [] ∈ starts)
  | cons w p ih =>
    rw [Leftmost]
    cases crosses : w.crossing with
    | true =>
      rw [if_pos rfl, dropWhile_cons, crosses]
      simp only [reach_crossing crosses, exists_eq_right]
      refine exists_congr fun m => and_congr_right fun _ => and_congr_left fun _ => ?_
      exact ⟨fun longest t mem r same => same ▸ longest t mem, fun longest r mem => longest r mem r rfl⟩
    | false =>
      have step (r : List α) : (∃ t ∈ After sep w starts, Reach sep p t r) ↔
          ∃ t ∈ starts, Reach sep (w :: p) t r := by
        constructor
        · rintro ⟨s, ⟨l, spans, mem⟩, reach⟩
          exact ⟨l ++ s, mem, (reach_cons crosses).mpr ⟨l, s, rfl, spans, reach⟩⟩
        · rintro ⟨t, mem, reach⟩
          obtain ⟨l, s, rfl, spans, reach⟩ := (reach_cons crosses).mp reach
          exact ⟨s, ⟨l, spans, mem⟩, reach⟩
      rw [if_neg Bool.false_ne_true, ih, dropWhile_cons, crosses]
      simp only [step]
      refine exists_congr fun m => and_congr_right fun _ => and_congr_left fun _ => ?_
      constructor
      · intro longest t mem r reach
        obtain ⟨s, memS, reachS⟩ := (step r).mpr ⟨t, mem, reach⟩
        exact longest s memS r reachS
      · intro longest s mem r reach
        obtain ⟨t, memT, reachT⟩ := (step r).mp ⟨s, mem, reach⟩
        exact longest t memT r reachT

/-! ### Later starts -/

/-- **A run takes in what a later start would leave**: from the place where single tokens lead, the
run behind them reaches all that they and the run reach from further on without a separator. -/
theorem Leads.absorb (leads : Leads sep q t u) (single : ∀ w ∈ q, w.single = true) {l s : List α}
    (cut : t = l ++ s) (within : sep ∉ l) (reach : Reach sep (q ++ .run :: p) s r) :
    Reach sep (.run :: p) u r := by
  induction q generalizing t l s with
  | nil =>
    obtain rfl : t = u := leads
    obtain ⟨a, v, rfl, apart, reach⟩ := (reach_cons rfl).mp reach
    refine (reach_cons rfl).mpr ⟨l ++ a, v, by rw [cut, append_assoc], ?_, reach⟩
    exact fun mem => (mem_append.mp mem).elim within apart
  | cons w q ih =>
    have first := single w mem_cons_self
    obtain ⟨x, t', rfl, spans, leads⟩ := leads
    obtain ⟨a, rfl, takes⟩ := (spans_single first).mp spans
    obtain ⟨y, s', rfl, spans, later⟩ := (reach_cons (not_crossing_of_single first)).mp reach
    obtain ⟨b, rfl, takesLater⟩ := (spans_single first).mp spans
    have rest (w : Wildcard α) (mem : w ∈ q) := single w (mem_cons_of_mem _ mem)
    cases l with
    | nil =>
      obtain ⟨-, same⟩ := List.cons.inj cut
      exact ih leads rest (l := []) same not_mem_nil later
    | cons c l =>
      obtain ⟨rfl, same⟩ := List.cons.inj cut
      rw [mem_cons, not_or] at within
      refine ih leads rest (l := l ++ [b]) ?_ ?_ later
      · rw [append_assoc]
        exact same
      · intro mem
        rcases mem_append.mp mem with mem | mem
        · exact within.2 mem
        · exact takes_apart takes takesLater (Ne.symm within.1) (mem_singleton.mp mem).symm

/-- **A later start does no better**: what it reaches the earlier start reaches too, or it reaches it
from behind the place where the earlier one is. -/
theorem Leads.exchange (leads : Leads sep q t u) (plain : ∀ w ∈ q, w.crossing = false)
    {l s : List α} (cut : t = l ++ s) (reach : Reach sep (q ++ p) s r) :
    Reach sep (q ++ p) t r ∨ ∃ k v, u = k ++ v ∧ Reach sep p v r := by
  induction q generalizing t l s with
  | nil =>
    obtain rfl : t = u := leads
    exact .inr ⟨l, s, cut, reach⟩
  | cons w q ih =>
    have first := plain w mem_cons_self
    have rest (w : Wildcard α) (mem : w ∈ q) := plain w (mem_cons_of_mem _ mem)
    obtain ⟨x, t', rfl, spans, leads⟩ := leads
    obtain ⟨y, s', rfl, spansLater, reach⟩ := (reach_cons first).mp reach
    -- What is left behind the token is further on for the later start, or the token is a run.
    have further : (∃ k, t' = k ++ s') ∨ (w.Spans sep (l ++ y) ∧ ∃ k, x = (l ++ y) ++ k) := by
      rw [← append_assoc] at cut
      rcases append_eq_append_iff.mp cut with ⟨k, -, tail⟩ | ⟨k, front, tail⟩
      · exact .inl ⟨k, tail⟩
      · cases w with
        | run =>
          refine .inr ⟨fun mem => spans ?_, k, front⟩
          rw [front]
          exact mem_append_left _ mem
        | literal c =>
          obtain ⟨a, rfl, -⟩ := spans
          obtain ⟨b, rfl, -⟩ := spansLater
          have lengths := congrArg List.length front
          simp only [length_append, length_singleton] at lengths
          have empty : k = [] := eq_nil_of_length_eq_zero (by omega)
          exact .inl ⟨[], by rw [tail, empty]; rfl⟩
        | one test =>
          obtain ⟨a, rfl, -⟩ := spans
          obtain ⟨b, rfl, -⟩ := spansLater
          have lengths := congrArg List.length front
          simp only [length_append, length_singleton] at lengths
          have empty : k = [] := eq_nil_of_length_eq_zero (by omega)
          exact .inl ⟨[], by rw [tail, empty]; rfl⟩
        | deep => exact absurd first (Bool.false_ne_true ∘ Eq.symm)
        | folders => exact absurd first (Bool.false_ne_true ∘ Eq.symm)
    rcases further with ⟨k, tail⟩ | ⟨spansAll, -⟩
    · refine (ih leads rest tail reach).imp_left fun reach => ?_
      exact (reach_cons first).mpr ⟨x, t', rfl, spans, reach⟩
    · refine .inl ((reach_cons first).mpr ⟨l ++ y, s', ?_, spansAll, reach⟩)
      rw [cut, append_assoc]

/-! ### Leftmost matches and all matches -/

theorem Leftmost.matches_ {starts : Set (List α)} (leftmost : Leftmost sep p starts) :
    ∃ t ∈ starts, Matches sep p t := by
  induction p generalizing starts with
  | nil => exact ⟨[], leftmost, rfl⟩
  | cons w p ih =>
    rw [Leftmost] at leftmost
    split at leftmost
    · obtain ⟨m, mem, -, leftmost⟩ := leftmost
      obtain ⟨r, ⟨l, spans, same⟩, matches_⟩ := ih leftmost
      exact ⟨m, mem, l, r, same.symm, spans, matches_⟩
    · obtain ⟨r, ⟨l, spans, mem⟩, matches_⟩ := ih leftmost
      exact ⟨l ++ r, mem, l, r, rfl, spans, matches_⟩

/-- Nothing, or a list that ends in the separator: what stands before a part. -/
def Ended (sep : α) (l : List α) : Prop := l = [] ∨ l.getLast? = some sep

omit [DecidableEq α] in
theorem Ended.append {l k : List α} (first : Ended sep l) (second : Ended sep k) :
    Ended sep (l ++ k) := by
  rcases second with rfl | last
  · rwa [append_nil]
  · exact .inr (by rw [getLast?_append, last, Option.some_or])

omit [DecidableEq α] in
theorem Ended.of_append {l k : List α} (all : Ended sep (l ++ k)) : Ended sep k := by
  rcases eq_nil_or_concat' k with rfl | ⟨k, a, rfl⟩
  · exact .inl rfl
  · rw [← append_assoc] at all
    rcases all with empty | last
    · exact absurd empty (append_ne_nil_of_right_ne_nil _ (cons_ne_nil _ _))
    · rw [getLast?_concat] at last
      exact .inr (getLast?_concat.trans last)

/-- Each wildcard that stands for whole parts begins where a part does: at the start where the start
is one, behind a separator or behind another such wildcard. -/
def Anchored (sep : α) : Bool → List (Wildcard α) → Prop
  | _, [] => True
  | bounded, .folders :: p => bounded = true ∧ Anchored sep true p
  | _, .literal a :: p => Anchored sep (a = sep) p
  | _, .one _ :: p => Anchored sep false p
  | _, .run :: p => Anchored sep false p
  | _, .deep :: p => Anchored sep false p

/-- The starts are rests of one list, and begin parts of it where they are to. -/
def StartsIn (sep : α) (whole : List α) (bounded : Bool) (starts : Set (List α)) : Prop :=
  ∀ r ∈ starts, ∃ l, whole = l ++ r ∧ (bounded = true → Ended sep l)

omit [DecidableEq α] in
theorem StartsIn.longest {whole : List α} {bounded : Bool} {starts : Set (List α)}
    (inside : StartsIn sep whole bounded starts) (some_ : starts.Nonempty) :
    ∃ m ∈ starts, ∀ r ∈ starts, r.length ≤ m.length := by
  obtain ⟨m, mem, least⟩ := (measure fun r : List α => whole.length - r.length).wf.has_min starts some_
  refine ⟨m, mem, fun r memR => ?_⟩
  have kept : ¬whole.length - r.length < whole.length - m.length := least r memR
  obtain ⟨l, cut, -⟩ := inside r memR
  have lengths := congrArg List.length cut
  rw [length_append] at lengths
  omega

/-- **With the wildcards of whole parts begun at parts**, the leftmost reading finds every match. -/
theorem leftmost_iff_matches {whole : List α} {bounded : Bool} {starts : Set (List α)}
    (anchored : Anchored sep bounded p) (inside : StartsIn sep whole bounded starts) :
    Leftmost sep p starts ↔ ∃ t ∈ starts, Matches sep p t := by
  refine ⟨Leftmost.matches_, ?_⟩
  rintro ⟨t, mem, matches_⟩
  induction p generalizing t bounded starts with
  | nil =>
    obtain rfl : t = [] := matches_
    exact mem
  | cons w p ih =>
    obtain ⟨l, s, rfl, spans, matches_⟩ := matches_
    have plain {next : Bool} (anchored : Anchored sep next p)
        (ended : ∀ l, w.Spans sep l → next = true → Ended sep l ∧ l ≠ []) :
        Leftmost sep p (After sep w starts) := by
      refine ih anchored (fun r => ?_) s ⟨l, spans, mem⟩ matches_
      rintro ⟨k, spans, memK⟩
      obtain ⟨front, cut, -⟩ := inside _ memK
      refine ⟨front ++ k, by rw [cut, append_assoc], fun bound => ?_⟩
      obtain ⟨closed | closed, some_⟩ := ended k spans bound
      · exact absurd closed some_
      · exact .inr (by rw [getLast?_append, closed, Option.some_or])
    -- A crossing one, from the longest start: the match begins behind it.
    have crossing {next : Bool} (anchored : Anchored sep next p)
        (wide : ∀ k, (bounded = true → Ended sep k) → w.Spans sep (k ++ l))
        (ended : ∀ l, w.Spans sep l → next = true → bounded = true ∧ Ended sep l) :
        ∃ m ∈ starts, (∀ r ∈ starts, r.length ≤ m.length) ∧ Leftmost sep p (After sep w {m}) := by
      obtain ⟨m, memM, longest⟩ := inside.longest ⟨_, mem⟩
      refine ⟨m, memM, longest, ih anchored (fun r => ?_) s ?_ matches_⟩
      · rintro ⟨k, spans, rfl⟩
        obtain ⟨front, cut, closed⟩ := inside _ memM
        refine ⟨front ++ k, by rw [cut, append_assoc], fun bound => ?_⟩
        obtain ⟨was, now_⟩ := ended k spans bound
        exact (closed was).append now_
      · obtain ⟨front, cut, -⟩ := inside _ memM
        obtain ⟨back, cut', closed⟩ := inside _ mem
        have lengths := longest _ mem
        obtain ⟨k, rfl, tail⟩ | ⟨k, shape, tail⟩ := append_eq_append_iff.mp (cut.symm.trans cut')
        · exact ⟨k ++ l, wide k fun bound => (closed bound).of_append,
            by rw [tail, append_assoc]; rfl⟩
        · have empty : k = [] := by
            have shorter := congrArg List.length tail
            simp only [length_append] at shorter lengths
            exact eq_nil_of_length_eq_zero (by omega)
          subst empty
          exact ⟨l, wide [] fun _ => .inl rfl, tail⟩
    cases w with
    | literal a =>
      refine (if_neg Bool.false_ne_true).mpr (plain anchored ?_)
      rintro _ ⟨b, rfl, takes⟩ same
      rw [of_decide_eq_true takes, of_decide_eq_true same]
      exact ⟨.inr rfl, cons_ne_nil _ _⟩
    | one test =>
      exact (if_neg Bool.false_ne_true).mpr
        (plain anchored fun _ _ never => absurd never Bool.false_ne_true)
    | run =>
      exact (if_neg Bool.false_ne_true).mpr
        (plain anchored fun _ _ never => absurd never Bool.false_ne_true)
    | deep =>
      exact (if_pos rfl).mpr (crossing anchored (fun _ _ => trivial)
        fun _ _ never => absurd never Bool.false_ne_true)
    | folders =>
      obtain ⟨bound, anchored⟩ := anchored
      exact (if_pos rfl).mpr (crossing anchored (fun k closed => (closed bound).append spans)
        fun _ spans _ => ⟨bound, spans⟩)

end Language

end Microide.Lib
