/-
Token buckets.

A bucket holds at most `burst` tokens and gains one each `interval`. It is refilled lazily, from the
epoch of its last refill: whole intervals move the epoch on, a full bucket moves it to the reading.
A reading before the epoch refills nothing.

**Main results.** `Spent.count_le`: where tokens are spent at readings that do not go back, no span
of time sees more spent than the burst and one each interval of the span.
-/

import Mathlib.Data.List.Basic
import Mathlib.Data.List.Pairwise
import Mathlib.Tactic.Ring

namespace Microide.Lib

open List

structure TokenBucket where
  tokens : Nat
  epoch : Nat

namespace TokenBucket

variable (burst interval : Nat)

/-- The bucket at a reading, nothing spent. -/
def refilled (b : TokenBucket) (now : Nat) : TokenBucket :=
  let gained := (now - b.epoch) / interval
  if burst ≤ b.tokens + gained then ⟨burst, now⟩
  else ⟨b.tokens + gained, b.epoch + gained * interval⟩

/-- One token spent at a reading. -/
def spend (b : TokenBucket) (now : Nat) : Option TokenBucket :=
  let full := b.refilled burst interval now
  if full.tokens = 0 then none else some { full with tokens := full.tokens - 1 }

/-- One token spent at each reading of a list, from a bucket on. -/
inductive Spent (start : TokenBucket) : List Nat → TokenBucket → Prop where
  | none : Spent start [] start
  | spend {times : List Nat} {b after : TokenBucket} {now : Nat} (earlier : Spent start times b)
      (spent : b.spend burst interval now = some after) : Spent start (times ++ [now]) after

/-- What a bucket can pay for in parts of an interval, at a reading not before its epoch. -/
def credit (b : TokenBucket) (now : Nat) : Nat := interval * b.tokens + (now - b.epoch)

section Spend

variable {burst interval} {b after : TokenBucket} {now : Nat}

/-- A refill neither takes nor gives: a full bucket loses what is too much. -/
theorem credit_refilled_le (behind : b.epoch ≤ now) :
    (b.refilled burst interval now).credit interval now ≤ b.credit interval now := by
  have split := Nat.div_add_mod (now - b.epoch) interval
  rw [refilled]
  split
  next full =>
    have atLeast := Nat.mul_le_mul_left interval full
    rw [Nat.mul_add] at atLeast
    simp only [credit, Nat.sub_self]
    omega
  · simp only [credit]
    rw [Nat.mul_add, Nat.mul_comm _ interval]
    omega

/-- After a refill the parts of an interval do not make a token, and a full bucket has none. -/
theorem credit_refilled_le_burst (positive : 0 < interval) (behind : b.epoch ≤ now) :
    (b.refilled burst interval now).credit interval now ≤ interval * burst := by
  rw [refilled]
  split
  · simp [credit]
  next short =>
    have part := Nat.mod_lt (now - b.epoch) positive
    have split := Nat.div_add_mod (now - b.epoch) interval
    have room := Nat.mul_le_mul_left interval (Nat.lt_of_not_le short)
    rw [Nat.mul_succ] at room
    simp only [credit]
    rw [Nat.mul_comm _ interval]
    omega

theorem refilled_epoch_le (b : TokenBucket) (now : Nat) :
    (b.refilled burst interval now).epoch ≤ max b.epoch now := by
  have whole := Nat.div_mul_le_self (now - b.epoch) interval
  rw [refilled]
  split
  · exact Nat.le_max_right _ _
  · dsimp only
    omega

theorem spend_eq_some : b.spend burst interval now = some after ↔
    (b.refilled burst interval now).tokens = after.tokens + 1 ∧
      (b.refilled burst interval now).epoch = after.epoch := by
  rw [spend]
  obtain ⟨tokens, epoch⟩ := after
  split
  next zero =>
    simp [zero]
  next some_ =>
    rw [Option.some.injEq, TokenBucket.mk.injEq]
    exact and_congr_left fun _ => by dsimp only; omega

theorem credit_spend (spent : b.spend burst interval now = some after) :
    after.credit interval now + interval = (b.refilled burst interval now).credit interval now := by
  obtain ⟨tokens, epoch⟩ := spend_eq_some.mp spent
  rw [credit, credit, tokens, epoch, Nat.mul_succ]
  omega

end Spend

variable {burst interval} {start b : TokenBucket} {times : List Nat}

/-- A refill is never later than the last reading of all. -/
theorem Spent.epoch_le (spent : Spent burst interval start times b) {now : Nat}
    (from_ : start.epoch ≤ now) (past : ∀ t ∈ times, t ≤ now) : b.epoch ≤ now := by
  induction spent with
  | none => exact from_
  | @spend times b after last earlier spent ih =>
    have behind := ih fun t mem => past t (mem_append_left _ mem)
    obtain ⟨-, epoch⟩ := spend_eq_some.mp spent
    refine epoch ▸ (refilled_epoch_le b last).trans (max_le behind (past last ?_))
    exact mem_append_right _ mem_cons_self

/-- Where readings do not go back: from any instant on, what has been spent and what is left are
paid for by the burst and the time since. -/
theorem Spent.paid (positive : 0 < interval) (spent : Spent burst interval start times b)
    (ordered : times.Pairwise (· ≤ ·)) (first : ∀ t ∈ times, start.epoch ≤ t) :
    ∀ last, times.getLast? = some last → b.epoch ≤ last ∧ ∀ from_ ≤ last,
      interval * (times.filter fun t => from_ ≤ t).length + b.credit interval last ≤
        interval * burst + (last - from_) := by
  induction spent with
  | none => exact fun last none_ => absurd none_ (Option.some_ne_none last).symm
  | @spend times b after now earlier spent ih =>
    intro last found
    rw [getLast?_concat, Option.some.injEq] at found
    subst found
    obtain ⟨orderedBefore, -, below⟩ := pairwise_append.mp ordered
    have firsts (t : Nat) (mem : t ∈ times) := first t (mem_append_left _ mem)
    have ih := ih orderedBefore firsts
    have behind : b.epoch ≤ now := earlier.epoch_le (first now (mem_append_right _ mem_cons_self))
      fun t mem => below t mem now mem_cons_self
    obtain ⟨tokens, epoch⟩ := spend_eq_some.mp spent
    have paid := credit_spend spent
    refine ⟨epoch ▸ (refilled_epoch_le b now).trans (max_le behind le_rfl), fun from_ le => ?_⟩
    have counted : ((times ++ [now]).filter fun t => from_ ≤ t).length =
        (times.filter fun t => from_ ≤ t).length + 1 := by
      simp [le]
    rw [counted, Nat.mul_succ]
    by_cases any : ∃ t ∈ times, from_ ≤ t
    · -- Later than another: what was left then, and the time since.
      obtain ⟨t, mem, late⟩ := any
      obtain ⟨front, before, rfl⟩ := (eq_nil_or_concat' times).resolve_left (ne_nil_of_mem mem)
      have beforeNow := below before (mem_append_right _ mem_cons_self) now mem_cons_self
      have fromBefore : from_ ≤ before := by
        rcases mem_append.mp mem with inFront | isLast
        · exact late.trans ((pairwise_append.mp orderedBefore).2.2 t inFront before mem_cons_self)
        · exact late.trans (mem_singleton.mp isLast).le
      obtain ⟨epochBefore, all⟩ := ih before getLast?_concat
      have was := all from_ fromBefore
      have kept := @credit_refilled_le burst interval _ _ behind
      have grown : b.credit interval now = b.credit interval before + (now - before) := by
        rw [credit, credit]
        omega
      omega
    · -- The first of the span: at most a full bucket.
      have none_ : (times.filter fun t => from_ ≤ t) = [] := by
        rw [filter_eq_nil_iff]
        intro t mem late
        exact any ⟨t, mem, of_decide_eq_true late⟩
      have full := @credit_refilled_le_burst burst _ _ _ positive behind
      rw [none_, length_nil]
      omega

/-- **The rate.** -/
theorem Spent.count_le (positive : 0 < interval) (spent : Spent burst interval start times b)
    (ordered : times.Pairwise (· ≤ ·)) (first : ∀ t ∈ times, start.epoch ≤ t) (from_ span : Nat) :
    (times.filter fun t => from_ ≤ t ∧ t ≤ from_ + span).length ≤ burst + span / interval := by
  induction spent with
  | none => exact Nat.zero_le _
  | @spend times b after now earlier spent ih =>
    obtain ⟨orderedBefore, -, below⟩ := pairwise_append.mp ordered
    by_cases inside : from_ ≤ now ∧ now ≤ from_ + span
    · have all : ((times ++ [now]).filter fun t => from_ ≤ t ∧ t ≤ from_ + span) =
          (times ++ [now]).filter fun t => from_ ≤ t := by
        refine filter_congr fun t mem => ?_
        have within : t ≤ from_ + span := by
          rcases mem_append.mp mem with earlier | here
          · exact (below t earlier now mem_cons_self).trans inside.2
          · exact (mem_singleton.mp here).le.trans inside.2
        simp [within]
      obtain ⟨-, paid⟩ := (Spent.spend earlier spent).paid positive ordered first now
        getLast?_concat
      have bound := paid from_ inside.1
      rw [all, Nat.add_comm burst, ← Nat.add_mul_div_left _ _ positive, Nat.le_div_iff_mul_le positive,
        Nat.mul_comm]
      omega
    · have same : ((times ++ [now]).filter fun t => from_ ≤ t ∧ t ≤ from_ + span) =
          times.filter fun t => from_ ≤ t ∧ t ≤ from_ + span := by
        simp [inside]
      rw [same]
      exact ih orderedBefore fun t mem => first t (mem_append_left _ mem)

end TokenBucket

end Microide.Lib
