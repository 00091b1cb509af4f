/-
Runs of the change coalescer.

Ingests, consumptions and questions for the wait, in any order. A session also notes, of every batch
consumed, the changes ingested since the batch before.

**Main results.** `run_kept`: what holds after every run; `nextReadyDelayMs_exact`: the wait is the
least after which a consumption is granted; `changeCoalescing`: nothing is lost, the rate, the wait.
-/

import Mathlib.Data.List.Induction
import Microide.Project.ProjectChangeCoalescer

namespace Microide.Project

open List Lib
open ProjectChangeCoalescer

/-- A batch handed over, without a token where a flood forced it, and the changes ingested since the
one before. -/
structure Consumed where
  nowMs : UInt64
  forced : Bool
  batch : ProjectChangeBatch
  changes : List ProjectFileChange

structure CoalescerSession where
  coalescer : ProjectChangeCoalescer := {}
  log : List Consumed := []
  /-- The changes ingested since the last batch. -/
  since : List ProjectFileChange := []

inductive CoalescerOp where
  | ingest (batch : ProjectChangeBatch)
  | consumeReadyAt (nowMs : UInt64)
  | nextReadyDelayMs (nowMs : UInt64)

namespace CoalescerOp

def fileChanges : CoalescerOp → List ProjectFileChange
  | .ingest batch => batch.fileChanges
  | _ => []

def readings : CoalescerOp → List UInt64
  | .ingest _ => []
  | .consumeReadyAt nowMs => [nowMs]
  | .nextReadyDelayMs nowMs => [nowMs]

end CoalescerOp

namespace CoalescerSession

def perform (s : CoalescerSession) : CoalescerOp → CoalescerSession
  | .ingest batch =>
    { s with coalescer := s.coalescer.ingest batch, since := s.since ++ batch.fileChanges }
  | .consumeReadyAt nowMs =>
    let consumed := s.coalescer.consumeReadyAt nowMs
    match consumed.2 with
    | none => { s with coalescer := consumed.1 }
    | some batch =>
      { coalescer := consumed.1
        log := s.log ++ [⟨nowMs, (s.coalescer.budgetAt nowMs).1 = 0, batch, s.since⟩]
        since := [] }
  | .nextReadyDelayMs _ => s

def run (ops : List CoalescerOp) : CoalescerSession := ops.foldl perform {}

/-- The readings at which a token was spent. -/
def spentAt (log : List Consumed) : List Nat :=
  (log.filter fun consumed => !consumed.forced).map fun consumed => consumed.nowMs.toNat

/-- What holds after the operations so far. -/
structure Kept (ops : List CoalescerOp) (s : CoalescerSession) : Prop where
  indexed : s.coalescer.Indexed
  pending : Reports s.coalescer.pending s.since
  reported : ∀ consumed ∈ s.log, Reports consumed.batch consumed.changes
  shared : s.log.flatMap Consumed.changes ++ s.since = ops.flatMap CoalescerOp.fileChanges
  spent : TokenBucket.Spent kApplyBurst kApplyIntervalMs.toNat ⟨kApplyBurst, 0⟩ (spentAt s.log)
    s.coalescer.bucket
  readings : (s.log.map Consumed.nowMs).Sublist (ops.flatMap CoalescerOp.readings)

variable {ops : List CoalescerOp} {s : CoalescerSession}

theorem reports_nothing : Reports {} [] :=
  ⟨fun _ mem => absurd mem not_mem_nil, fun _ mem => absurd mem not_mem_nil, .nil⟩

theorem Kept.start : Kept [] {} where
  indexed := ⟨Nat.zero_le _, fun _ _ found => absurd found (Option.some_ne_none _).symm,
    fun _ mem => absurd mem not_mem_nil⟩
  pending := reports_nothing
  reported _ mem := absurd mem not_mem_nil
  shared := rfl
  spent := .none
  readings := .refl _

theorem Kept.ingest (kept : Kept ops s) (batch : ProjectChangeBatch)
    (same : (s.coalescer.ingest batch).bucket = s.coalescer.bucket) :
    Kept (ops ++ [.ingest batch]) (s.perform (.ingest batch)) where
  indexed := (ingest_spec kept.indexed kept.pending batch).1
  pending := (ingest_spec kept.indexed kept.pending batch).2
  reported := kept.reported
  shared := by
    rw [flatMap_append, ← kept.shared, append_assoc]
    simp [perform, CoalescerOp.fileChanges]
  spent := same ▸ kept.spent
  readings := by
    rw [flatMap_append]
    exact kept.readings.trans (sublist_append_left _ _)

/-- Merging touches no budget. -/
theorem bucket_mergeFileChange (c : ProjectChangeCoalescer) (change : ProjectFileChange) :
    (c.mergeFileChange change).bucket = c.bucket := by
  rw [mergeFileChange]
  split
  · rfl
  · split
    · rfl
    · split
      · rfl
      · rfl

theorem bucket_ingest (c : ProjectChangeCoalescer) (batch : ProjectChangeBatch) :
    (c.ingest batch).bucket = c.bucket := by
  have merged (changes : List ProjectFileChange) (c : ProjectChangeCoalescer) :
      (changes.foldl mergeFileChange c).bucket = c.bucket := by
    induction changes generalizing c with
    | nil => rfl
    | cons change changes ih => exact (ih _).trans (bucket_mergeFileChange c change)
  rw [ProjectChangeCoalescer.ingest]
  split
  · rfl
  · rw [mergeRepositoryChanges_same]
    exact merged _ _

theorem Kept.consume (kept : Kept ops s) (nowMs : UInt64) :
    Kept (ops ++ [.consumeReadyAt nowMs]) (s.perform (.consumeReadyAt nowMs)) := by
  have unread : (ops ++ [CoalescerOp.consumeReadyAt nowMs]).flatMap CoalescerOp.fileChanges =
      ops.flatMap CoalescerOp.fileChanges := by
    rw [flatMap_append]
    exact append_nil _
  have read : (ops ++ [CoalescerOp.consumeReadyAt nowMs]).flatMap CoalescerOp.readings =
      ops.flatMap CoalescerOp.readings ++ [nowMs] := flatMap_append
  rw [perform]
  rcases s.coalescer.consumeReadyAt_cases nowMs with ⟨-, same⟩ | ⟨-, after, generation, taken, empty,
      unindexed, paid⟩
  · rw [same]
    exact ⟨kept.indexed, kept.pending, kept.reported, kept.shared.trans unread.symm, kept.spent,
      read ▸ kept.readings.trans (sublist_append_left _ _)⟩
  · rw [taken]
    constructor
    · refine ⟨?_, fun key index found => ?_, fun key mem => ?_⟩
      · rw [empty]
        exact Nat.zero_le _
      · rw [unindexed] at found
        exact absurd found (Option.some_ne_none _).symm
      · rw [empty] at mem
        exact absurd mem not_mem_nil
    · rw [empty]
      exact reports_nothing
    · intro consumed mem
      rcases mem_append.mp mem with mem | mem
      · exact kept.reported consumed mem
      · rw [mem_singleton.mp mem]
        exact ⟨kept.pending.covered, kept.pending.named, kept.pending.distinct⟩
    · rw [unread, ← kept.shared, flatMap_append, append_nil]
      exact congrArg _ (append_nil _)
    · split at paid
      next forced =>
        rw [paid]
        simpa [forced, spentAt] using kept.spent
      next token =>
        have spent := kept.spent.spend paid
        simpa [token, spentAt] using spent
    · rw [map_append, read]
      exact kept.readings.append (.refl _)

/-- **What holds after every run.** -/
theorem run_kept (ops : List CoalescerOp) : Kept ops (run ops) := by
  induction ops using List.reverseRecOn with
  | nil => exact .start
  | append_singleton ops op ih =>
    rw [run, foldl_append]
    cases op with
    | ingest batch => exact ih.ingest batch (bucket_ingest _ batch)
    | consumeReadyAt nowMs => exact ih.consume nowMs
    | nextReadyDelayMs nowMs =>
      refine ⟨ih.indexed, ih.pending, ih.reported, ih.shared.trans ?_, ih.spent, ?_⟩
      · rw [flatMap_append]
        exact (append_nil _).symm
      · rw [flatMap_append]
        exact ih.readings.trans (sublist_append_left _ _)

end CoalescerSession

/-! ### The wait -/

section Wait

variable {c : ProjectChangeCoalescer} {nowMs : UInt64}

theorem budgetAt_eq_zero_iff : (c.budgetAt nowMs).1 = 0 ↔
    c.applyBudget = 0 ∧ nowMs.toNat - c.budgetEpochMs.toNat < kApplyIntervalMs.toNat := by
  have positive : 0 < kApplyIntervalMs.toNat := by decide
  rw [budgetAt_eq_zero, TokenBucket.refilled, bucket, ← Nat.div_eq_zero_iff_lt positive]
  split
  next full =>
    have burst : kApplyBurst = 4 := rfl
    dsimp only at full ⊢
    omega
  · exact Nat.add_eq_zero_iff

/-- **The wait is exact**: a consumption is granted after it and at no time before, unless the clock
would run out. -/
theorem nextReadyDelayMs_exact {delay : UInt64} (asked : c.nextReadyDelayMs nowMs = some delay)
    (room : c.budgetEpochMs.toNat + kApplyIntervalMs.toNat < 2 ^ 64) :
    nowMs.toNat + delay.toNat < 2 ^ 64 ∧ c.ReadyAt (nowMs + delay) ∧
      ∀ between, nowMs ≤ between → between.toNat < nowMs.toNat + delay.toNat →
        ¬c.ReadyAt between := by
  have bound := nowMs.toNat_lt
  rw [nextReadyDelayMs] at asked
  cases pending : c.hasPending with
  | false =>
    rw [pending] at asked
    exact absurd asked (Option.some_ne_none _).symm
  | true =>
    rw [pending, if_pos rfl] at asked
    dsimp only at asked
    split at asked
    next ready =>
      obtain rfl := Option.some.inj asked
      rw [UInt64.toNat_zero, Nat.add_zero, UInt64.add_zero]
      refine ⟨bound, ⟨pending, ready.imp_left Nat.pos_iff_ne_zero.mp⟩, fun between low high => ?_⟩
      exact absurd high (Nat.not_lt.mpr low)
    next held =>
      rw [not_or, Nat.not_lt, Nat.le_zero] at held
      obtain ⟨spent, keeps⟩ := held
      obtain ⟨none_, short⟩ := budgetAt_eq_zero_iff.mp spent
      have epoch : (c.budgetAt nowMs).2 = c.budgetEpochMs := by
        have short_ : ¬kApplyBurst ≤ 0 + 0 := by decide
        have unmoved := congrArg TokenBucket.epoch (budgetAt_refilled c nowMs)
        rw [TokenBucket.refilled, bucket] at unmoved
        rw [Nat.div_eq_of_lt short, none_, if_neg short_, Nat.zero_mul, Nat.add_zero] at unmoved
        exact UInt64.toNat_inj.mp unmoved
      have waits : nowMs.toNat + delay.toNat = c.budgetEpochMs.toNat + kApplyIntervalMs.toNat := by
        have := Option.some.inj asked
        rw [epoch] at this
        rw [← this, UInt64.toNat_sub, UInt64.toNat_sub]
        omega
      have added : (nowMs + delay).toNat = nowMs.toNat + delay.toNat := by
        rw [UInt64.toNat_add, Nat.mod_eq_of_lt]
        omega
      refine ⟨waits ▸ room, ⟨pending, .inl fun empty => ?_⟩, fun between low high ready => ?_⟩
      · have := (budgetAt_eq_zero_iff.mp empty).2
        omega
      · refine ready.2.elim (fun some_ => some_ (budgetAt_eq_zero_iff.mpr ⟨none_, ?_⟩)) keeps
        omega

end Wait

/-- **Nothing is lost, the rate is kept, and the wait is exact**, over every run. Every change has
its place in one batch or is still pending, and a batch reports the changes of its own. Readings close
to the end of the clock's range leave no room for the wait. -/
theorem changeCoalescing (ops : List CoalescerOp) :
    let s := CoalescerSession.run ops
    let readings := ops.flatMap CoalescerOp.readings
    (s.log.flatMap Consumed.changes ++ s.since = ops.flatMap CoalescerOp.fileChanges ∧
      (∀ consumed ∈ s.log, Reports consumed.batch consumed.changes) ∧
      Reports s.coalescer.pending s.since) ∧
    (readings.Pairwise (· ≤ ·) → ∀ from_ span : Nat,
      (s.log.filter fun consumed => !consumed.forced ∧ from_ ≤ consumed.nowMs.toNat ∧
        consumed.nowMs.toNat ≤ from_ + span).length ≤ kApplyBurst + span / kApplyIntervalMs.toNat) ∧
    ((∀ nowMs ∈ readings, nowMs.toNat + kApplyIntervalMs.toNat < 2 ^ 64) →
      ∀ nowMs delay, s.coalescer.nextReadyDelayMs nowMs = some delay →
        nowMs.toNat + delay.toNat < 2 ^ 64 ∧
        (s.coalescer.consumeReadyAt (nowMs + delay)).2.isSome = true ∧
        ∀ between, nowMs ≤ between → between.toNat < nowMs.toNat + delay.toNat →
          s.coalescer.consumeReadyAt between = (s.coalescer, none)) := by
  dsimp only
  have kept := CoalescerSession.run_kept ops
  refine ⟨⟨kept.shared, kept.reported, kept.pending⟩, fun ordered from_ span => ?_,
    fun room nowMs delay asked => ?_⟩
  · have sorted : (CoalescerSession.spentAt (CoalescerSession.run ops).log).Pairwise (· ≤ ·) := by
      have filtered := (ordered.sublist kept.readings).sublist
        (filter_sublist.map Consumed.nowMs : (((CoalescerSession.run ops).log.filter fun consumed =>
          !consumed.forced).map Consumed.nowMs).Sublist _)
      rw [pairwise_map] at filtered
      exact pairwise_map.mpr (filtered.imp UInt64.le_iff_toNat_le.mp)
    have rate := kept.spent.count_le (by decide) sorted (fun _ _ => Nat.zero_le _) from_ span
    refine Nat.le_trans (Nat.le_of_eq ?_) rate
    rw [CoalescerSession.spentAt, filter_map, length_map, filter_filter]
    refine congrArg List.length (filter_congr fun consumed _ => ?_)
    simp [Function.comp_apply, Bool.and_comm]
  · have epoch : (CoalescerSession.run ops).coalescer.budgetEpochMs.toNat + kApplyIntervalMs.toNat <
        2 ^ 64 := by
      have interval : kApplyIntervalMs.toNat = 250 := rfl
      have last : (CoalescerSession.run ops).coalescer.bucket.epoch ≤ 2 ^ 64 - 251 := by
        refine kept.spent.epoch_le (Nat.zero_le _) fun t mem => ?_
        obtain ⟨consumed, logged, rfl⟩ := mem_map.mp mem
        have read := kept.readings.subset (mem_map_of_mem (mem_of_mem_filter logged))
        have := room consumed.nowMs read
        omega
      rw [bucket] at last
      dsimp only at last
      omega
    obtain ⟨inside, ready, held⟩ := nextReadyDelayMs_exact asked epoch
    refine ⟨inside, ?_, fun between low high => ?_⟩
    · rcases consumeReadyAt_cases _ (nowMs + delay) with ⟨not_, -⟩ | ⟨-, after, generation, taken, -⟩
      · exact absurd ready not_
      · rw [taken]
        rfl
    · rcases consumeReadyAt_cases _ between with ⟨-, same⟩ | ⟨now_, -⟩
      · exact same
      · exact absurd now_ (held between low high)

/-- Four batches of one change each consumed at one reading, and a fifth pending. -/
def drained (nowMs : UInt64) : List CoalescerOp :=
  let change : CoalescerOp := .ingest { fileChanges := [⟨.modified, [0x61], [0x61]⟩] }
  let consumed : List CoalescerOp := [change, .consumeReadyAt nowMs]
  consumed ++ consumed ++ consumed ++ consumed ++ [change]

theorem changeCoalescing_drained :
    ((CoalescerSession.run (drained 1000)).coalescer.consumeReadyAt 1250).2.isSome = true ∧
      ((CoalescerSession.run (drained 1000)).coalescer.consumeReadyAt 1249).2 = none := by
  have room : ∀ nowMs ∈ (drained 1000).flatMap CoalescerOp.readings,
      nowMs.toNat + kApplyIntervalMs.toNat < 2 ^ 64 := by
    intro nowMs mem
    obtain rfl : nowMs = 1000 := by simpa [drained, CoalescerOp.readings] using mem
    decide
  obtain ⟨-, granted, held⟩ := (changeCoalescing (drained 1000)).2.2 room 1000 250 (by decide)
  exact ⟨granted, congrArg Prod.snd (held 1249 (by decide) (by decide))⟩

/-- At the end of the clock's range the wait of a clock that went back wraps: the consumption it
announces is not granted. -/
theorem nextReadyDelayMs_wraps :
    (CoalescerSession.run (drained 0xffffffffffffffff)).coalescer.nextReadyDelayMs 0 = some 249 ∧
      ((CoalescerSession.run (drained 0xffffffffffffffff)).coalescer.consumeReadyAt (0 + 249)).2 =
        none := by
  decide

end Microide.Project
