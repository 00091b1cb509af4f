/-
Runs of the serial work queue.

`Contract` is what the queue promises of every state. Two moves break it: `PostLatest` under the
empty key, whose index entry is left behind, and a `Drain` after `Shutdown`, which clears the list
with whatever barrier is still in it.

**Main results.** `Inv.step`: what the moves keep; `run_contract_iff`: a run keeps the
contract exactly where none of its steps is one of the two.
-/

import Microide.Util.SerialWorkQueue

namespace Microide.Util.SerialWorkQueue

open List AList

/-! ### The contract -/

/-- The numbers of the jobs for which the worker is to fire `on_complete`. -/
def inHand : Worker → List Nat
  | .holding job => [job.id]
  | .finished id => [id]
  | _ => []

def hand (s : SerialWorkQueue) : List Nat := inHand s.worker

/-- A node in the queue that the index may name under `key`. -/
def Names (s : SerialWorkQueue) (key : JobKey) (node : Option Nat) : Prop :=
  ∃ job ∈ s.queue, node = some job.id ∧ job.cancelled = false ∧ job.key = key

structure Contract (s : SerialWorkQueue) : Prop where
  /-- `on_complete` fires once at most for a job, and for admitted ones only. -/
  once : s.completed.Nodup
  balanced : ∀ id ∈ s.completed, id ∈ s.admitted
  /-- and has fired for all where nothing is queued and the worker holds nothing. -/
  settled : s.queue = [] → s.hand = [] → s.completed.Perm s.admitted
  indexed : ∀ key node, s.keyedIndex.lookup key = some node → s.Names key node
  oneLive : ∀ a ∈ s.queue, ∀ b ∈ s.queue, a.cancelled = false → b.cancelled = false →
    a.key = b.key → a.key ≠ [] → a = b
  shedDroppable : ∀ job ∈ s.shed, job.droppable = true
  durableKept : ∀ job ∈ s.queue, job.durable = true → job ∈ s.cancel.queue
  /-- A barrier is in the queue, in the hands of the worker, who runs it, or has run. -/
  barriersRun : ∀ id ∈ s.barriers, (∃ job ∈ s.queue, job.id = id) ∨
    (∃ job, s.worker = .holding job ∧ job.id = id ∧ job.hasTask = true ∧
      job.runEvenIfCancelled = true) ∨ id ∈ s.ran
  defined : s.dangled = false

/-- The job's entry would stay behind: its key is empty and the index names it. -/
def EntryStays (s : SerialWorkQueue) (job : Job) : Prop :=
  job.key = [] ∧ s.keyedIndex.lookup [] = some (some job.id)

/-- The budget sheds no job whose entry would stay behind. -/
def ShedsCleanly (maxDepth : Nat) (s : SerialWorkQueue) : Prop :=
  ∀ job, s.toShed maxDepth = some job → ¬ s.EntryStays job

/-- The steps that keep the contract. -/
def Safe (maxDepth : Nat) (s : SerialWorkQueue) : Action → Prop
  | .post .. | .postFront .. => s.stop = false → s.ShedsCleanly maxDepth
  | .postLatest key .. => s.stop = false → (s.supersede key).ShedsCleanly maxDepth
  | .take => ∀ job, s.queue.head? = some job → ¬ s.EntryStays job
  | .drain => s.stop = true → ∀ job ∈ s.queue, job.runEvenIfCancelled = false
  | _ => True

/-! ### The invariant -/

/-- The invariant, with the slot of one key left for a node to come. -/
structure InvBut (slot : Option JobKey) (s : SerialWorkQueue) : Prop where
  fresh : ∀ id ∈ s.admitted, id < s.nextId
  distinct : s.admitted.Nodup
  balance : s.admitted.Perm (s.completed ++ (s.queue.map (·.id) ++ s.hand))
  ranLeft : ∀ id ∈ s.ran, id ∈ s.completed ∨ s.worker = .finished id
  indexed : ∀ key node, s.keyedIndex.lookup key = some node →
    (slot = some key ∧ node = none) ∨
      ∃ job ∈ s.queue, node = some job.id ∧ job.cancelled = false ∧ job.key = key ∧
        job.runEvenIfCancelled = false
  slotted : ∀ key, slot = some key → s.keyedIndex.lookup key = some none
  named : ∀ job ∈ s.queue, job.cancelled = false → job.key ≠ [] →
    s.keyedIndex.lookup job.key = some (some job.id)
  keyless : ∀ job ∈ s.queue, job.durable = true ∨ job.runEvenIfCancelled = true →
    job.key = [] ∧ job.droppable = false
  shed : ∀ job ∈ s.shed, job.droppable = true
  barrierTask : ∀ job ∈ s.queue, job.runEvenIfCancelled = true →
    job.hasTask = true ∧ job.id ∈ s.barriers
  barriers : ∀ id ∈ s.barriers,
    (∃ job ∈ s.queue, job.id = id ∧ job.runEvenIfCancelled = true) ∨
    (∃ job, s.worker = .holding job ∧ job.id = id ∧ job.hasTask = true ∧
      job.runEvenIfCancelled = true) ∨ id ∈ s.ran
  unstarted : s.started = false → s.queue = []
  defined : s.dangled = false

abbrev Inv (s : SerialWorkQueue) : Prop := s.InvBut none

theorem Inv.new : Inv {} where
  fresh := fun _ mem => nomatch mem
  distinct := .nil
  balance := .nil
  ranLeft := fun _ mem => nomatch mem
  indexed := fun _ _ found => nomatch found
  slotted := fun _ absurd => nomatch absurd
  named := fun _ mem => nomatch mem
  keyless := fun _ mem => nomatch mem
  shed := fun _ mem => nomatch mem
  barrierTask := fun _ mem => nomatch mem
  barriers := fun _ mem => nomatch mem
  unstarted := fun _ => rfl
  defined := rfl

section InvBut

variable {slot : Option JobKey} {s : SerialWorkQueue}

section

variable (inv : s.InvBut slot)

include inv

theorem InvBut.ids_nodup : (s.completed ++ (s.queue.map (·.id) ++ s.hand)).Nodup :=
  inv.balance.nodup_iff.mp inv.distinct

theorem InvBut.queue_nodup : (s.queue.map (·.id)).Nodup :=
  (nodup_append.mp (nodup_append.mp inv.ids_nodup).2.1).1

theorem InvBut.eq_of_id {a b : Job} (ha : a ∈ s.queue) (hb : b ∈ s.queue) (same : a.id = b.id) :
    a = b :=
  inj_on_of_nodup_map inv.queue_nodup ha hb same

theorem InvBut.id_lt {job : Job} (mem : job ∈ s.queue) : job.id < s.nextId := by
  refine inv.fresh _ (inv.balance.mem_iff.mpr ?_)
  exact mem_append_right _ (mem_append_left _ (mem_map_of_mem mem))

/-- A queued job has not run. -/
theorem InvBut.not_ran {job : Job} (mem : job ∈ s.queue) : job.id ∉ s.ran := by
  intro ran
  have queued : job.id ∈ s.queue.map (·.id) := mem_map_of_mem mem
  obtain ⟨-, later, apart⟩ := nodup_append.mp inv.ids_nodup
  rcases inv.ranLeft _ ran with done | held
  · exact apart _ done _ (mem_append_left _ queued) rfl
  · refine (nodup_append.mp later).2.2 _ queued _ ?_ rfl
    rw [hand, held, inHand]
    exact mem_cons_self

/-- A queued job is in nobody's hands. -/
theorem InvBut.not_held {job held : Job} (mem : job ∈ s.queue) (holds : s.worker = .holding held) :
    job.id ≠ held.id := by
  have queued : job.id ∈ s.queue.map (·.id) := mem_map_of_mem mem
  refine (nodup_append.mp (nodup_append.mp inv.ids_nodup).2.1).2.2 _ queued _ ?_
  rw [hand, holds, inHand]
  exact mem_cons_self

end

end InvBut

theorem Inv.contract {s : SerialWorkQueue} (inv : s.Inv) : s.Contract where
  once := (nodup_append.mp inv.ids_nodup).1
  balanced := fun id mem => inv.balance.mem_iff.mpr (mem_append_left _ mem)
  settled := by
    intro empty free
    have balance := inv.balance
    rw [empty, free, map_nil, append_nil, append_nil] at balance
    exact balance.symm
  indexed := by
    intro key node found
    rcases inv.indexed key node found with ⟨absurd, -⟩ | ⟨job, mem, names, live, keyed, -⟩
    · exact nomatch absurd
    · exact ⟨job, mem, names, live, keyed⟩
  oneLive := by
    intro a ha b hb liveA liveB same keyed
    have nameA := inv.named a ha liveA keyed
    have nameB := inv.named b hb liveB (same ▸ keyed)
    rw [same, nameB] at nameA
    exact inv.eq_of_id ha hb (Option.some.inj (Option.some.inj nameA)).symm
  shedDroppable := inv.shed
  durableKept := by
    intro job mem durable
    refine mem_map.mpr ⟨job, mem, ?_⟩
    obtain ⟨id, key, hasTask, cancelled, droppable, even, isDurable⟩ := job
    obtain rfl : isDurable = true := durable
    rw [Bool.not_true, Bool.or_false]
  barriersRun := by
    intro id mem
    rcases inv.barriers id mem with ⟨job, queued, is, -⟩ | held | ran
    · exact .inl ⟨job, queued, is⟩
    · exact .inr (.inl held)
    · exact .inr (.inr ran)
  defined := inv.defined

/-! ### What the helpers keep -/

variable {index : AList fun _ : JobKey => Option Nat}

section Helpers

variable {slot : Option JobKey} {s : SerialWorkQueue}

theorem InvBut.ensureStarted (inv : s.InvBut slot) : s.ensureStartedLocked.InvBut slot := by
  unfold ensureStartedLocked
  split
  · exact inv
  · exact { inv with unstarted := fun absurd => nomatch absurd }

theorem started_ensureStarted (running : s.stop = false) :
    s.ensureStartedLocked.started = true := by
  unfold ensureStartedLocked
  split
  next already =>
    simpa [running] using already
  · rfl

theorem mem_withoutNode {id : Nat} {job : Job} :
    job ∈ s.withoutNode id ↔ job ∈ s.queue ∧ job.id ≠ id := by
  simp [withoutNode]

/-- The numbers of a queue, one of them taken out. -/
theorem InvBut.perm_withoutNode (inv : s.InvBut slot) {job : Job} (mem : job ∈ s.queue) :
    (job.id :: (s.withoutNode job.id).map (·.id)).Perm (s.queue.map (·.id)) := by
  have filtered : (s.withoutNode job.id).map (·.id) =
      (s.queue.map (·.id)).filter (· != job.id) := by
    rw [filter_map, withoutNode]
    congr 1
    refine filter_congr fun other _ => ?_
    by_cases same : other.id = job.id <;> simp [same]
  rw [filtered, ← inv.queue_nodup.erase_eq_filter]
  exact (perm_cons_erase (mem_map_of_mem mem)).symm

/-- A job leaves the queue, into the hands of the worker or with its `on_complete`. -/
theorem InvBut.leaves (inv : s.InvBut slot) {job : Job} (mem : job ∈ s.queue)
    {slot' : Option JobKey} {completed : List Nat} {worker : Worker}
    (slots : slot = none ∨ slot' = slot)
    (slotted : ∀ key, slot' = some key → index.lookup key = some none)
    (shrinks : ∀ key node, index.lookup key = some node → (slot' = some key ∧ node = none) ∨
      (s.keyedIndex.lookup key = some node ∧ node ≠ some job.id))
    (keeps : ∀ key id, key ≠ [] → id ≠ job.id → s.keyedIndex.lookup key = some (some id) →
      index.lookup key = some (some id))
    (goes : (job.id :: (s.completed ++ s.hand)).Perm (completed ++ inHand worker))
    (ranLeft : ∀ id ∈ s.ran, id ∈ completed ∨ worker = .finished id)
    (held : ∀ other, s.worker = .holding other → worker = .holding other)
    (taken : job.runEvenIfCancelled = false ∨ worker = .holding job) : InvBut slot' { s with
      keyedIndex := index
      queue := s.withoutNode job.id
      completed := completed
      worker := worker } where
  fresh := inv.fresh
  distinct := inv.distinct
  balance := by
    have whole := perm_iff_count.mp inv.balance
    have cut := perm_iff_count.mp (inv.perm_withoutNode mem)
    have moved := perm_iff_count.mp goes
    rw [perm_iff_count]
    intro id
    have whole := whole id
    have cut := cut id
    have moved := moved id
    simp only [hand, count_append, count_cons] at whole cut moved ⊢
    omega
  ranLeft := ranLeft
  indexed := by
    intro key node found
    rcases shrinks key node found with slot_ | ⟨before, other⟩
    · exact .inl slot_
    · rcases inv.indexed key node before with ⟨isSlot, none_⟩ | ⟨named, queued, rfl, rest⟩
      · rcases slots with rfl | rfl
        · exact nomatch isSlot
        · exact .inl ⟨isSlot, none_⟩
      · refine .inr ⟨named, mem_withoutNode.mpr ⟨queued, ?_⟩, rfl, rest⟩
        exact fun same => other (congrArg some same)
  slotted := slotted
  named := by
    intro other queued live keyed
    obtain ⟨queued, apart⟩ := mem_withoutNode.mp queued
    exact keeps _ _ keyed apart (inv.named other queued live keyed)
  keyless := fun other queued => inv.keyless other (mem_withoutNode.mp queued).1
  shed := inv.shed
  barrierTask := fun other queued => inv.barrierTask other (mem_withoutNode.mp queued).1
  barriers := by
    intro id isBarrier
    rcases inv.barriers id isBarrier with ⟨barrier, queued, rfl, even⟩ | ⟨other, holds, rest⟩ | ran
    · by_cases same : barrier.id = job.id
      · have is := inv.eq_of_id queued mem same
        subst is
        rcases taken with plain | taken
        · rw [plain] at even
          exact nomatch even
        · exact .inr (.inl ⟨barrier, taken, rfl, (inv.barrierTask barrier mem even).1, even⟩)
      · exact .inl ⟨barrier, mem_withoutNode.mpr ⟨queued, same⟩, rfl, even⟩
    · exact .inr (.inl ⟨other, held other holds, rest⟩)
    · exact .inr (.inr ran)
  unstarted := by
    intro unstarted
    rw [inv.unstarted unstarted] at mem
    exact nomatch mem
  defined := inv.defined

/-- A job that is no barrier leaves the queue with its `on_complete`. -/
theorem InvBut.removed (inv : s.InvBut slot) {job : Job} (mem : job ∈ s.queue)
    (plain : job.runEvenIfCancelled = false) {slot' : Option JobKey}
    (slots : slot = none ∨ slot' = slot)
    (slotted : ∀ key, slot' = some key → index.lookup key = some none)
    (shrinks : ∀ key node, index.lookup key = some node → (slot' = some key ∧ node = none) ∨
      (s.keyedIndex.lookup key = some node ∧ node ≠ some job.id))
    (keeps : ∀ key id, key ≠ [] → id ≠ job.id → s.keyedIndex.lookup key = some (some id) →
      index.lookup key = some (some id)) :
    InvBut slot' { s with
      keyedIndex := index
      queue := s.withoutNode job.id
      completed := job.id :: s.completed } :=
  inv.leaves mem slots slotted shrinks keeps (.refl _)
    (fun id ran => (inv.ranLeft id ran).imp_left (mem_cons_of_mem _)) (fun _ holds => holds)
    (.inl plain)

section IndexWithout

variable (inv : s.InvBut slot) {job : Job} (mem : job ∈ s.queue)

include inv in
theorem InvBut.slotted_indexWithout (key : JobKey) (isSlot : slot = some key) :
    (s.indexWithout job).lookup key = some none := by
  have before := inv.slotted key isSlot
  unfold indexWithout
  split
  next named =>
    rw [lookup_erase_ne, before]
    rintro rfl
    rw [before] at named
    exact nomatch named.2
  · exact before

include inv mem in
/-- The index without a job names it nowhere, where its entry is not left behind. -/
theorem InvBut.indexWithout_shrinks (clean : ¬ s.EntryStays job) (key : JobKey) (node : Option Nat)
    (found : (s.indexWithout job).lookup key = some node) :
    s.keyedIndex.lookup key = some node ∧ node ≠ some job.id := by
  have onlyKey : s.keyedIndex.lookup key = some (some job.id) → job.key = key := by
    intro before
    rcases inv.indexed key _ before with ⟨-, absurd⟩ | ⟨other, queued, ids, -, keyed, -⟩
    · exact nomatch absurd
    · rwa [inv.eq_of_id queued mem (Option.some.inj ids).symm] at keyed
  unfold indexWithout at found
  split at found
  · by_cases same : key = job.key
    · rw [same, lookup_erase] at found
      exact nomatch found
    · rw [lookup_erase_ne same] at found
      refine ⟨found, ?_⟩
      rintro rfl
      exact same (onlyKey found).symm
  next unnamed =>
    refine ⟨found, ?_⟩
    rintro rfl
    obtain rfl := onlyKey found
    by_cases empty : job.key = []
    · exact clean ⟨empty, empty ▸ found⟩
    · exact unnamed ⟨empty, found⟩

theorem indexWithout_keeps {key : JobKey} {id : Nat} (apart : id ≠ job.id)
    (before : s.keyedIndex.lookup key = some (some id)) :
    (s.indexWithout job).lookup key = some (some id) := by
  unfold indexWithout
  split
  next named =>
    rw [lookup_erase_ne, before]
    rintro rfl
    rw [named.2] at before
    exact apart (Option.some.inj (Option.some.inj before)).symm
  · exact before

end IndexWithout

theorem InvBut.eraseQueued (inv : s.InvBut slot) {job : Job} (mem : job ∈ s.queue)
    (plain : job.runEvenIfCancelled = false) (clean : ¬ s.EntryStays job) :
    (s.eraseQueuedLocked job).InvBut slot :=
  inv.removed mem plain (.inr rfl) inv.slotted_indexWithout
    (fun key node found => .inr (inv.indexWithout_shrinks mem clean key node found))
    (fun _ _ _ => indexWithout_keeps)

theorem InvBut.shedIfOverBudget (inv : s.InvBut slot) {maxDepth : Nat}
    (clean : s.ShedsCleanly maxDepth) : (s.shedIfOverBudgetLocked maxDepth).InvBut slot := by
  unfold shedIfOverBudgetLocked
  split
  next job chosen =>
    have found : s.queue.find? (fun job => job.droppable && !job.cancelled) = some job := by
      unfold toShed at chosen
      split at chosen
      · exact nomatch chosen
      · exact chosen
    have mem := mem_of_find?_eq_some found
    have droppable : job.droppable = true := by
      have passes := find?_some found
      simp only [Bool.and_eq_true] at passes
      exact passes.1
    have plain : job.runEvenIfCancelled = false := by
      by_contra even
      have kept := (inv.keyless job mem (.inr (by simpa using even))).2
      rw [droppable] at kept
      exact nomatch kept
    have erased := inv.eraseQueued mem plain (clean job chosen)
    refine { erased with shed := ?_ }
    intro other gone
    rcases mem_cons.mp gone with rfl | gone
    · exact droppable
    · exact inv.shed other gone
  · exact inv

theorem started_shedIfOverBudget {maxDepth : Nat} :
    (s.shedIfOverBudgetLocked maxDepth).started = s.started := by
  unfold shedIfOverBudgetLocked
  split <;> rfl

/-- A new job joins the queue; under its key where a slot is left for it. -/
theorem InvBut.pushed (inv : s.InvBut slot) (started : s.started = true) (job : Job)
    {queue : List Job} {barriers : List Nat}
    (perm : queue.Perm (job :: s.queue)) (new : job.id = s.nextId)
    (live : job.cancelled = false)
    (keyless : job.durable = true ∨ job.runEvenIfCancelled = true →
      job.key = [] ∧ job.droppable = false)
    (task : job.runEvenIfCancelled = true → job.hasTask = true)
    (isBarrier : barriers =
      if job.runEvenIfCancelled = true then s.nextId :: s.barriers else s.barriers)
    (slots : (slot = none ∧ job.key = [] ∧ index = s.keyedIndex) ∨
      (slot = some job.key ∧ job.runEvenIfCancelled = false ∧
        index = s.keyedIndex.insert job.key (some s.nextId))) :
    Inv { s with
      queue := queue
      keyedIndex := index
      admitted := s.nextId :: s.admitted
      nextId := s.nextId + 1
      barriers := barriers } where
  fresh := by
    intro id mem
    rcases mem_cons.mp mem with rfl | mem
    · exact Nat.lt_succ_self _
    · exact Nat.lt_succ_of_lt (inv.fresh id mem)
  distinct := by
    refine nodup_cons.mpr ⟨fun mem => ?_, inv.distinct⟩
    exact Nat.lt_irrefl _ (inv.fresh _ mem)
  balance := by
    have ids : (queue.map (·.id)).Perm (s.nextId :: s.queue.map (·.id)) := by
      rw [← new]
      exact perm.map _
    refine (inv.balance.cons s.nextId).trans (perm_middle.symm.trans ?_)
    exact ((ids.append_right s.hand).symm).append_left s.completed
  ranLeft := inv.ranLeft
  indexed := by
    intro key node found
    rcases slots with ⟨rfl, empty, rfl⟩ | ⟨rfl, plain, rfl⟩
    · rcases inv.indexed key node found with ⟨absurd, -⟩ | ⟨named, queued, rest⟩
      · exact nomatch absurd
      · exact .inr ⟨named, perm.mem_iff.mpr (mem_cons_of_mem _ queued), rest⟩
    · by_cases same : key = job.key
      · subst same
        rw [lookup_insert] at found
        obtain rfl := Option.some.inj found
        exact .inr ⟨job, perm.mem_iff.mpr mem_cons_self, congrArg some new.symm, live, rfl, plain⟩
      · rw [lookup_insert_ne same] at found
        rcases inv.indexed key node found with ⟨isSlot, -⟩ | ⟨named, queued, rest⟩
        · exact absurd (Option.some.inj isSlot).symm same
        · exact .inr ⟨named, perm.mem_iff.mpr (mem_cons_of_mem _ queued), rest⟩
  slotted := fun _ absurd => nomatch absurd
  named := by
    intro other queued liveOther keyed
    rcases mem_cons.mp (perm.mem_iff.mp queued) with rfl | queued
    · rcases slots with ⟨-, empty, -⟩ | ⟨-, -, rfl⟩
      · exact absurd empty keyed
      · rw [lookup_insert, new]
    · have before := inv.named other queued liveOther keyed
      rcases slots with ⟨-, -, rfl⟩ | ⟨rfl, -, rfl⟩
      · exact before
      · rw [lookup_insert_ne, before]
        intro same
        rw [same, inv.slotted _ rfl] at before
        exact nomatch before
  keyless := by
    intro other queued
    rcases mem_cons.mp (perm.mem_iff.mp queued) with rfl | queued
    · exact keyless
    · exact inv.keyless other queued
  shed := inv.shed
  barrierTask := by
    intro other queued even
    rw [isBarrier]
    rcases mem_cons.mp (perm.mem_iff.mp queued) with rfl | queued
    · rw [if_pos even, new]
      exact ⟨task even, mem_cons_self⟩
    · obtain ⟨hasTask, mem⟩ := inv.barrierTask other queued even
      refine ⟨hasTask, ?_⟩
      split
      · exact mem_cons_of_mem _ mem
      · exact mem
  barriers := by
    have old : ∀ id ∈ s.barriers, (∃ j ∈ queue, j.id = id ∧ j.runEvenIfCancelled = true) ∨
        (∃ j, s.worker = .holding j ∧ j.id = id ∧ j.hasTask = true ∧
          j.runEvenIfCancelled = true) ∨ id ∈ s.ran := by
      intro id mem
      rcases inv.barriers id mem with ⟨barrier, queued, rest⟩ | rest
      · exact .inl ⟨barrier, perm.mem_iff.mpr (mem_cons_of_mem _ queued), rest⟩
      · exact .inr rest
    intro id mem
    rw [isBarrier] at mem
    split at mem
    next even =>
      rcases mem_cons.mp mem with rfl | mem
      · exact .inl ⟨job, perm.mem_iff.mpr mem_cons_self, new, even⟩
      · exact old id mem
    · exact old id mem
  unstarted := by
    intro unstarted
    rw [started] at unstarted
    exact nomatch unstarted
  defined := inv.defined

/-- The index names nobody, and who is not cancelled has no key. -/
theorem Inv.cancelling (inv : s.Inv) (cancels : Job → Bool)
    (keyed : ∀ job ∈ s.queue, cancels job = false → job.key = []) : Inv { s with
      queue := s.queue.map fun job => { job with cancelled := cancels job }
      keyedIndex := ∅ } where
  fresh := inv.fresh
  distinct := inv.distinct
  balance := by
    rw [map_map]
    exact inv.balance
  ranLeft := inv.ranLeft
  indexed := fun _ _ found => nomatch found
  slotted := fun _ absurd => nomatch absurd
  named := by
    intro job mem live named
    obtain ⟨source, queued, rfl⟩ := mem_map.mp mem
    exact absurd (keyed source queued live) named
  keyless := by
    intro job mem
    obtain ⟨source, queued, rfl⟩ := mem_map.mp mem
    exact inv.keyless source queued
  shed := inv.shed
  barrierTask := by
    intro job mem
    obtain ⟨source, queued, rfl⟩ := mem_map.mp mem
    exact inv.barrierTask source queued
  barriers := by
    intro id mem
    rcases inv.barriers id mem with ⟨barrier, queued, rest⟩ | rest
    · exact .inl ⟨_, mem_map_of_mem queued, rest⟩
    · exact .inr rest
  unstarted := by
    intro unstarted
    rw [inv.unstarted unstarted, map_nil]
  defined := inv.defined

theorem Inv.clearQueue (inv : s.Inv) (noBarrier : ∀ job ∈ s.queue, job.runEvenIfCancelled = false) :
    s.clearQueue.Inv where
  fresh := inv.fresh
  distinct := inv.distinct
  balance := by
    refine inv.balance.trans ?_
    rw [← append_assoc]
    exact (perm_append_comm).append_right s.hand
  ranLeft := by
    intro id ran
    exact (inv.ranLeft id ran).imp_left (mem_append_right _)
  indexed := fun _ _ found => nomatch found
  slotted := fun _ absurd => nomatch absurd
  named := fun _ mem => nomatch mem
  keyless := fun _ mem => nomatch mem
  shed := inv.shed
  barrierTask := fun _ mem => nomatch mem
  barriers := by
    intro id mem
    rcases inv.barriers id mem with ⟨barrier, queued, -, even⟩ | rest
    · rw [noBarrier barrier queued] at even
      exact nomatch even
    · exact .inr rest
  unstarted := fun _ => rfl
  defined := inv.defined

theorem Inv.supersede (inv : s.Inv) (key : JobKey) : (s.supersede key).InvBut (some key) := by
  have slotted : ∀ k, some key = some k →
      (s.keyedIndex.insert key none).lookup k = some none := by
    intro k isKey
    obtain rfl := Option.some.inj isKey
    exact lookup_insert _
  unfold SerialWorkQueue.supersede
  split
  next id found =>
    rcases inv.indexed key _ found with ⟨absurd, -⟩ | ⟨job, mem, ids, live, keyed, plain⟩
    · exact nomatch absurd
    · obtain rfl := Option.some.inj ids
      rw [if_pos (any_eq_true.mpr ⟨job, mem, by simp⟩)]
      refine inv.removed mem plain (.inl rfl) slotted ?_ ?_
      · intro k node after
        by_cases same : k = key
        · subst same
          rw [lookup_insert] at after
          exact .inl ⟨rfl, (Option.some.inj after).symm⟩
        · rw [lookup_insert_ne same] at after
          refine .inr ⟨after, ?_⟩
          rintro rfl
          rcases inv.indexed k _ after with ⟨absurd, -⟩ | ⟨other, queued, others, -, keyedK, -⟩
          · exact nomatch absurd
          · rw [inv.eq_of_id queued mem (Option.some.inj others).symm, keyed] at keyedK
            exact same keyedK.symm
      · intro k id _ apart before
        rw [lookup_insert_ne, before]
        rintro rfl
        rw [found] at before
        exact apart (Option.some.inj (Option.some.inj before)).symm
  next found =>
    rcases inv.indexed key _ found with ⟨absurd, -⟩ | ⟨job, mem, ids, -⟩
    · exact nomatch absurd
    · exact nomatch ids
  next absent =>
    refine { inv with indexed := ?_, slotted := slotted, named := ?_ }
    · intro k node after
      by_cases same : k = key
      · subst same
        rw [lookup_insert] at after
        exact .inl ⟨rfl, (Option.some.inj after).symm⟩
      · rw [lookup_insert_ne same] at after
        exact (inv.indexed k node after).imp_left fun h => nomatch h.1
    · intro job mem live keyed
      rw [lookup_insert_ne, inv.named job mem live keyed]
      rintro rfl
      have named := inv.named job mem live keyed
      rw [absent] at named
      exact nomatch named

theorem started_supersede {key : JobKey} : (s.supersede key).started = s.started := by
  unfold SerialWorkQueue.supersede
  split
  · split <;> rfl
  · rfl
  · rfl

end Helpers

/-! ### Steps -/

section Steps

variable {maxDepth : Nat} {s s' : SerialWorkQueue}

theorem shedsCleanly_congr {t : SerialWorkQueue} (queue : t.queue = s.queue)
    (index : t.keyedIndex = s.keyedIndex) : t.ShedsCleanly maxDepth ↔ s.ShedsCleanly maxDepth := by
  unfold ShedsCleanly EntryStays toShed
  rw [queue, index]

theorem shedsCleanly_ensureStarted :
    s.ensureStartedLocked.ShedsCleanly maxDepth ↔ s.ShedsCleanly maxDepth := by
  unfold ensureStartedLocked
  split
  · exact Iff.rfl
  · exact shedsCleanly_congr rfl rfl

theorem supersede_started (key : JobKey) :
    supersede { s with started := true } key = { s.supersede key with started := true } := by
  cases found : s.keyedIndex.lookup key with
  | none => simp [SerialWorkQueue.supersede, found]
  | some node =>
    cases node with
    | none => simp [SerialWorkQueue.supersede, found]
    | some id =>
      simp only [SerialWorkQueue.supersede, found]
      split <;> rfl

theorem shedsCleanly_supersede (key : JobKey) :
    (s.ensureStartedLocked.supersede key).ShedsCleanly maxDepth ↔
      (s.supersede key).ShedsCleanly maxDepth := by
  unfold ensureStartedLocked
  split
  · exact Iff.rfl
  · rw [supersede_started]
    exact shedsCleanly_congr rfl rfl

section

variable (inv : s.Inv)

include inv

theorem Inv.post (hasTask : Bool) (shedding : Shedding)
    (clean : s.stop = false → s.ShedsCleanly maxDepth) :
    (s.post maxDepth hasTask shedding).Inv := by
  unfold SerialWorkQueue.post
  split
  · exact inv
  next running =>
    rw [Bool.not_eq_true] at running
    have ready := inv.ensureStarted.shedIfOverBudget
      (shedsCleanly_ensureStarted.mpr (clean running))
    exact ready.pushed (started_shedIfOverBudget.trans (started_ensureStarted running))
      { id := _, hasTask := hasTask, droppable := shedding = .droppable }
      (perm_append_singleton _ _) rfl rfl (by simp) (fun absurd => nomatch absurd) rfl
      (.inl ⟨rfl, rfl, rfl⟩)

theorem Inv.postFront (hasTask : Bool) (clean : s.stop = false → s.ShedsCleanly maxDepth) :
    (s.postFront maxDepth hasTask).Inv := by
  unfold SerialWorkQueue.postFront
  split
  · exact inv
  next running =>
    rw [Bool.not_eq_true] at running
    have ready := inv.ensureStarted.shedIfOverBudget
      (shedsCleanly_ensureStarted.mpr (clean running))
    exact ready.pushed (started_shedIfOverBudget.trans (started_ensureStarted running))
      { id := _, hasTask := hasTask } (.refl _) rfl rfl (by simp) (fun absurd => nomatch absurd)
      rfl (.inl ⟨rfl, rfl, rfl⟩)

theorem Inv.postDurable (hasTask : Bool) : (s.postDurable hasTask).Inv := by
  unfold SerialWorkQueue.postDurable
  split
  · exact inv
  next running =>
    rw [Bool.not_eq_true] at running
    exact inv.ensureStarted.pushed (started_ensureStarted running)
      { id := _, hasTask := hasTask, durable := true } (perm_append_singleton _ _) rfl rfl
      (fun _ => ⟨rfl, rfl⟩) (fun absurd => nomatch absurd) rfl (.inl ⟨rfl, rfl, rfl⟩)

theorem Inv.postLatest (key : JobKey) (hasTask : Bool) (shedding : Shedding)
    (clean : s.stop = false → (s.supersede key).ShedsCleanly maxDepth) :
    (s.postLatest maxDepth key hasTask shedding).Inv := by
  unfold SerialWorkQueue.postLatest
  split
  · exact inv
  next running =>
    rw [Bool.not_eq_true] at running
    have started : s.ensureStartedLocked.Inv := inv.ensureStarted
    have ready := (started.supersede key).shedIfOverBudget
      ((shedsCleanly_supersede key).mpr (clean running))
    exact ready.pushed
      ((started_shedIfOverBudget.trans started_supersede).trans (started_ensureStarted running))
      { id := _, key := key, hasTask := hasTask, droppable := shedding = .droppable }
      (perm_append_singleton _ _) rfl rfl (by simp) (fun absurd => nomatch absurd) rfl
      (.inr ⟨rfl, rfl, rfl⟩)

theorem Inv.cancel : s.cancel.Inv := by
  refine inv.cancelling (fun job => job.cancelled || !job.durable) fun job mem spared => ?_
  simp only [Bool.or_eq_false_iff, Bool.not_eq_false'] at spared
  exact (inv.keyless job mem (.inl spared.2)).1

theorem Inv.cancelAll : Inv { s with queue := s.cancelAll, keyedIndex := ∅ } :=
  inv.cancelling (fun _ => true) fun _ _ absurd => nomatch absurd

theorem Inv.pushBarrier (started : s.started = true) : s.pushBarrier.Inv :=
  InvBut.pushed inv started { id := _, hasTask := true, runEvenIfCancelled := true }
    (perm_append_singleton _ _) rfl rfl (fun _ => ⟨rfl, rfl⟩) (fun _ => rfl) rfl
    (.inl ⟨rfl, rfl, rfl⟩)

theorem Inv.drain (noBarrier : s.stop = true → ∀ job ∈ s.queue, job.runEvenIfCancelled = false) :
    s.drain.Inv := by
  unfold SerialWorkQueue.drain
  split
  next stops =>
    refine inv.clearQueue ?_
    rcases (Bool.or_eq_true _ _).mp stops with stopped | unstarted
    · exact noBarrier stopped
    · rw [inv.unstarted (by simpa using unstarted)]
      exact fun _ absurd => nomatch absurd
  next runs =>
    simp only [Bool.or_eq_true, not_or, Bool.not_eq_true, Bool.not_eq_false'] at runs
    exact inv.cancelAll.pushBarrier runs.2

theorem Inv.flush : s.flush.Inv := by
  unfold SerialWorkQueue.flush
  split
  · exact inv
  next runs =>
    simp only [Bool.or_eq_true, not_or, Bool.not_eq_true, Bool.not_eq_false'] at runs
    exact inv.pushBarrier runs.2

theorem Inv.shutdown : s.shutdown.Inv := by
  unfold SerialWorkQueue.shutdown
  split
  · exact inv
  · exact { inv.cancelAll with }

end

theorem take_some (taken : s.take = some s') :
    ∃ job rest, s.worker = .idle ∧ s.queue = job :: rest ∧ s.started = true ∧
      s' = { s with keyedIndex := s.indexWithout job, queue := rest, worker := .holding job } := by
  unfold SerialWorkQueue.take at taken
  split at taken
  next job rest idle shape =>
    split at taken
    · exact ⟨job, rest, idle, shape, ‹_›, (Option.some.inj taken).symm⟩
    · exact nomatch taken
  · exact nomatch taken

/-- The worker takes the front job; the entry that named it goes. -/
theorem Inv.take (inv : s.Inv) (clean : ∀ job, s.queue.head? = some job → ¬ s.EntryStays job)
    (taken : s.take = some s') : s'.Inv := by
  obtain ⟨job, rest, idle, shape, started, rfl⟩ := take_some taken
  have mem : job ∈ s.queue := shape ▸ mem_cons_self
  have left : s.withoutNode job.id = rest := by
    have ids := inv.queue_nodup
    rw [shape, map_cons, nodup_cons] at ids
    rw [withoutNode, shape, filter_cons_of_neg (by simp), filter_eq_self]
    intro other queued
    refine decide_eq_true fun same => ids.1 ?_
    rw [← same]
    exact mem_map_of_mem queued
  have stays := clean job (by rw [shape]; rfl)
  rw [← left]
  have free : s.hand = [] := by
    rw [hand, idle]
    rfl
  refine InvBut.leaves inv mem (.inr rfl) inv.slotted_indexWithout
    (fun key node found => .inr (inv.indexWithout_shrinks mem stays key node found))
    (fun _ _ _ => indexWithout_keeps) ?_ ?_ ?_ (.inr rfl)
  · rw [free, append_nil]
    exact (perm_append_singleton _ _).symm
  · intro id ran
    rcases inv.ranLeft id ran with done | finished
    · exact .inl done
    · rw [idle] at finished
      exact nomatch finished
  · intro other holds
    rw [idle] at holds
    exact nomatch holds

theorem Inv.run (inv : s.Inv) (taken : s.run = some s') : s'.Inv := by
  unfold SerialWorkQueue.run at taken
  split at taken
  next job holds =>
    obtain rfl := Option.some.inj taken
    have same : s.hand = inHand (.finished job.id) := by
      rw [hand, holds]
      rfl
    refine { inv with balance := ?_, ranLeft := ?_, barriers := ?_ }
    · have balance := inv.balance
      rw [same] at balance
      exact balance
    · intro id ran
      have before : id ∈ s.ran → id ∈ s.completed ∨ Worker.finished job.id = .finished id := by
        intro ran
        rcases inv.ranLeft id ran with done | finished
        · exact .inl done
        · rw [holds] at finished
          exact nomatch finished
      split at ran
      · rcases mem_cons.mp ran with rfl | ran
        · exact .inr rfl
        · exact before ran
      · exact before ran
    · intro id isBarrier
      rcases inv.barriers id isBarrier with queued | ⟨held, is, rfl, hasTask, even⟩ | ran
      · exact .inl queued
      · obtain rfl := Worker.holding.inj (holds.symm.trans is)
        refine .inr (.inr ?_)
        rw [hasTask, even, Bool.or_true, Bool.and_true, if_pos rfl]
        exact mem_cons_self
      · refine .inr (.inr ?_)
        split
        · exact mem_cons_of_mem _ ran
        · exact ran
  · exact nomatch taken

theorem Inv.complete (inv : s.Inv) (taken : s.complete = some s') : s'.Inv := by
  unfold SerialWorkQueue.complete at taken
  split at taken
  next id finished =>
    obtain rfl := Option.some.inj taken
    refine { inv with balance := ?_, ranLeft := ?_, barriers := ?_ }
    · have whole := perm_iff_count.mp inv.balance
      rw [perm_iff_count]
      intro a
      have whole := whole a
      simp only [hand, finished, inHand, count_append, count_cons] at whole ⊢
      omega
    · intro other ran
      refine .inl ?_
      rcases inv.ranLeft other ran with done | last
      · exact mem_cons_of_mem _ done
      · obtain rfl := Worker.finished.inj (finished.symm.trans last)
        exact mem_cons_self
    · intro other isBarrier
      rcases inv.barriers other isBarrier with queued | ⟨held, holds, -⟩ | ran
      · exact .inl queued
      · rw [finished] at holds
        exact nomatch holds
      · exact .inr (.inr ran)
  · exact nomatch taken

theorem Inv.exit (inv : s.Inv) (taken : s.exit = some s') : s'.Inv := by
  unfold SerialWorkQueue.exit at taken
  split at taken
  next leaving =>
    obtain rfl := Option.some.inj taken
    have idle := leaving.1
    refine { inv with balance := ?_, ranLeft := ?_, barriers := ?_ }
    · have balance := inv.balance
      rw [hand, idle] at balance
      exact balance
    · intro id ran
      rcases inv.ranLeft id ran with done | finished
      · exact .inl done
      · rw [idle] at finished
        exact nomatch finished
    · intro id isBarrier
      rcases inv.barriers id isBarrier with queued | ⟨held, holds, -⟩ | ran
      · exact .inl queued
      · rw [idle] at holds
        exact nomatch holds
      · exact .inr (.inr ran)
  · exact nomatch taken

/-- A safe step keeps the invariant. -/
theorem Inv.step (inv : s.Inv) {action : Action} (safe : s.Safe maxDepth action)
    (taken : s.step maxDepth action = some s') : s'.Inv := by
  cases action with
  | ensureStarted =>
    obtain rfl := Option.some.inj taken
    exact inv.ensureStarted
  | post hasTask shedding =>
    obtain rfl := Option.some.inj taken
    exact inv.post hasTask shedding safe
  | postLatest key hasTask shedding =>
    obtain rfl := Option.some.inj taken
    exact inv.postLatest key hasTask shedding safe
  | postFront hasTask =>
    obtain rfl := Option.some.inj taken
    exact inv.postFront hasTask safe
  | postDurable hasTask =>
    obtain rfl := Option.some.inj taken
    exact inv.postDurable hasTask
  | cancel =>
    obtain rfl := Option.some.inj taken
    exact inv.cancel
  | drain =>
    obtain rfl := Option.some.inj taken
    exact inv.drain safe
  | flush =>
    obtain rfl := Option.some.inj taken
    exact inv.flush
  | shutdown =>
    obtain rfl := Option.some.inj taken
    exact inv.shutdown
  | clearUnstarted =>
    unfold SerialWorkQueue.step at taken
    dsimp only at taken
    split at taken
    next ended =>
      obtain rfl := Option.some.inj taken
      simp only [Bool.and_eq_true, Bool.not_eq_true'] at ended
      refine inv.clearQueue ?_
      rw [inv.unstarted ended.2]
      exact fun _ absurd => nomatch absurd
    · exact nomatch taken
  | take => exact inv.take safe taken
  | run => exact inv.run taken
  | complete => exact inv.complete taken
  | exit => exact inv.exit taken

/-! ### The steps that break it -/

/-- A key whose node is gone. -/
theorem Contract.not_of_entry (id : Nat) (entry : s'.keyedIndex.lookup [] = some (some id))
    (gone : ∀ job ∈ s'.queue, job.id ≠ id) : ¬ s'.Contract := by
  intro contract
  obtain ⟨job, mem, names, -⟩ := contract.indexed [] _ entry
  exact gone job mem (Option.some.inj names).symm

/-- A job shed while its entry stays leaves the entry behind. -/
theorem InvBut.entry_of_shed {slot : Option JobKey} (inv : s.InvBut slot) {job : Job}
    (chosen : s.toShed maxDepth = some job) (stays : s.EntryStays job) :
    (s.shedIfOverBudgetLocked maxDepth).keyedIndex.lookup [] = some (some job.id) ∧
      job.id < (s.shedIfOverBudgetLocked maxDepth).nextId ∧
      ∀ other ∈ (s.shedIfOverBudgetLocked maxDepth).queue, other.id ≠ job.id := by
  have mem : job ∈ s.queue := by
    unfold toShed at chosen
    split at chosen
    · exact nomatch chosen
    · exact mem_of_find?_eq_some chosen
  unfold shedIfOverBudgetLocked
  rw [chosen]
  refine ⟨?_, inv.id_lt mem, fun other left => (mem_withoutNode.mp left).2⟩
  change (s.indexWithout job).lookup [] = _
  rw [indexWithout, if_neg fun named => named.1 stays.1]
  exact stays.2

theorem not_shedsCleanly (unclean : ¬ s.ShedsCleanly maxDepth) :
    ∃ job, s.toShed maxDepth = some job ∧ s.EntryStays job := by
  unfold ShedsCleanly at unclean
  simpa only [not_forall, not_not, exists_prop] using unclean

/-- Any other step breaks the contract. -/
theorem Inv.breaks (inv : s.Inv) {action : Action} (unclean : ¬ s.Safe maxDepth action)
    (taken : s.step maxDepth action = some s') : ¬ s'.Contract := by
  cases action with
  | post hasTask shedding =>
    obtain rfl := Option.some.inj taken
    obtain ⟨running, unclean⟩ := Classical.not_imp.mp unclean
    rw [← shedsCleanly_ensureStarted] at unclean
    obtain ⟨job, chosen, stays⟩ := not_shedsCleanly unclean
    obtain ⟨entry, old, gone⟩ := inv.ensureStarted.entry_of_shed chosen stays
    rw [SerialWorkQueue.post, if_neg (by simp [running])]
    refine Contract.not_of_entry _ entry fun other mem => ?_
    rcases mem_append.mp mem with left | new
    · exact gone other left
    · rw [mem_singleton.mp new]
      exact Nat.ne_of_gt old
  | postFront hasTask =>
    obtain rfl := Option.some.inj taken
    obtain ⟨running, unclean⟩ := Classical.not_imp.mp unclean
    rw [← shedsCleanly_ensureStarted] at unclean
    obtain ⟨job, chosen, stays⟩ := not_shedsCleanly unclean
    obtain ⟨entry, old, gone⟩ := inv.ensureStarted.entry_of_shed chosen stays
    rw [SerialWorkQueue.postFront, if_neg (by simp [running])]
    refine Contract.not_of_entry _ entry fun other mem => ?_
    rcases mem_cons.mp mem with rfl | left
    · exact Nat.ne_of_gt old
    · exact gone other left
  | postLatest key hasTask shedding =>
    obtain rfl := Option.some.inj taken
    obtain ⟨running, unclean⟩ := Classical.not_imp.mp unclean
    rw [← shedsCleanly_supersede] at unclean
    obtain ⟨job, chosen, stays⟩ := not_shedsCleanly unclean
    have started : s.ensureStartedLocked.Inv := inv.ensureStarted
    have ready := started.supersede key
    obtain ⟨entry, old, gone⟩ := ready.entry_of_shed chosen stays
    have keyed : [] ≠ key := by
      rintro rfl
      have slot := ready.slotted [] rfl
      rw [stays.2] at slot
      exact nomatch slot
    rw [SerialWorkQueue.postLatest, if_neg (by simp [running])]
    refine Contract.not_of_entry job.id ?_ fun other mem => ?_
    · exact (lookup_insert_ne keyed).trans entry
    · rcases mem_append.mp mem with left | new
      · exact gone other left
      · rw [mem_singleton.mp new]
        exact Nat.ne_of_gt old
  | take =>
    obtain ⟨job, rest, idle, shape, started, rfl⟩ := take_some taken
    have stays : s.EntryStays job := by
      by_contra clean
      refine unclean fun other front => ?_
      rw [shape] at front
      obtain rfl := Option.some.inj front
      exact clean
    have ids := inv.queue_nodup
    rw [shape, map_cons, nodup_cons] at ids
    refine Contract.not_of_entry job.id ?_ fun other mem same => ids.1 ?_
    · rw [indexWithout, if_neg fun named => named.1 stays.1]
      exact stays.2
    · rw [← same]
      exact mem_map_of_mem mem
  | drain =>
    obtain rfl := Option.some.inj taken
    obtain ⟨stopped, unclean⟩ := Classical.not_imp.mp unclean
    simp only [not_forall, Bool.not_eq_false] at unclean
    obtain ⟨barrier, mem, even⟩ := unclean
    rw [SerialWorkQueue.drain, if_pos (by simp [stopped])]
    intro contract
    rcases contract.barriersRun barrier.id (inv.barrierTask barrier mem even).2 with
      ⟨other, left, -⟩ | ⟨held, holds, same, -⟩ | ran
    · exact nomatch left
    · exact inv.not_held mem holds same.symm
    · exact inv.not_ran mem ran
  | ensureStarted => exact absurd trivial unclean
  | postDurable hasTask => exact absurd trivial unclean
  | cancel => exact absurd trivial unclean
  | flush => exact absurd trivial unclean
  | shutdown => exact absurd trivial unclean
  | clearUnstarted => exact absurd trivial unclean
  | run => exact absurd trivial unclean
  | complete => exact absurd trivial unclean
  | exit => exact absurd trivial unclean

end Steps

/-! ### Runs -/

theorem Run.inv {maxDepth : Nat} {history : List (SerialWorkQueue × Action)} {s : SerialWorkQueue}
    (run : Run maxDepth history s) (safe : ∀ p ∈ history, p.1.Safe maxDepth p.2) : s.Inv := by
  induction run with
  | new => exact Inv.new
  | step action _ taken ih =>
    have before := ih fun p mem => safe p (mem_cons_of_mem _ mem)
    exact before.step (safe _ mem_cons_self) taken

/-- A run keeps the contract in all its states exactly where all its steps are safe. -/
theorem run_contract_iff {maxDepth : Nat} {history : List (SerialWorkQueue × Action)}
    {s : SerialWorkQueue} (run : Run maxDepth history s) :
    (s.Contract ∧ ∀ p ∈ history, p.1.Contract) ↔ ∀ p ∈ history, p.1.Safe maxDepth p.2 := by
  induction run with
  | new =>
    constructor
    · exact fun _ _ mem => nomatch mem
    · exact fun _ => ⟨Inv.new.contract, fun _ mem => nomatch mem⟩
  | @step history before after action run taken ih =>
    constructor
    · rintro ⟨contract, earlier⟩
      have safe := ih.mp ⟨earlier _ mem_cons_self, fun p mem => earlier p (mem_cons_of_mem _ mem)⟩
      intro p mem
      rcases mem_cons.mp mem with rfl | mem
      · by_contra unclean
        exact (run.inv safe).breaks unclean taken contract
      · exact safe p mem
    · intro safe
      have earlier : ∀ p ∈ history, p.1.Safe maxDepth p.2 :=
        fun p mem => safe p (mem_cons_of_mem _ mem)
      obtain ⟨contract, rest⟩ := ih.mpr earlier
      refine ⟨((run.inv earlier).step (safe _ mem_cons_self) taken).contract, ?_⟩
      intro p mem
      rcases mem_cons.mp mem with rfl | mem
      · exact contract
      · exact rest p mem

/-- A new queue after one `PostLatest` under the key `h`. -/
def hovering : SerialWorkQueue := postLatest 0 {} [0x68] true .droppable

theorem run_contract_iff_hovering :
    (hovering.Contract ∧
        ∀ p ∈ [(({} : SerialWorkQueue), Action.postLatest [0x68] true .droppable)],
          p.1.Contract) ↔
      ∀ p ∈ [(({} : SerialWorkQueue), Action.postLatest [0x68] true .droppable)],
        p.1.Safe 0 p.2 :=
  run_contract_iff (Run.new.step (.postLatest [0x68] true .droppable) rfl)

/-- `Flush`, `Shutdown` and `Drain` on a started queue: the barrier of the first is cleared by
the last. -/
def meeting : SerialWorkQueue :=
  (((ensureStartedLocked {}).flush).shutdown).drain

/-- The barrier has left the queue and never runs. -/
theorem drain_loses_barrier :
    ¬ ∀ maxDepth history s, Run maxDepth history s → s.Contract := by
  intro kept
  have run : Run 0 _ meeting := (((Run.new.step .ensureStarted rfl).step .flush rfl).step
    .shutdown rfl).step .drain rfl
  rcases (kept 0 _ meeting run).barriersRun 0 mem_cons_self with
    ⟨job, absurd, -⟩ | ⟨job, absurd, -⟩ | absurd
  · exact nomatch absurd
  · exact nomatch absurd
  · exact nomatch absurd

end Microide.Util.SerialWorkQueue
