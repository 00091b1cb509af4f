/-
The serial work queue.

One worker thread and a list of jobs behind a mutex; every locked section of every thread is
one action, and so are the worker's three moves with a job: it takes it, runs it, and fires
`on_complete`. A node of the list is known by a number that is never given twice, so an
iterator that outlives its node names a number that is no longer in the queue.

`admitted`, `completed`, `ran`, `barriers` and `shed` record what was done: the numbers for
which `on_enqueue` and `on_complete` fired, whose tasks ran, which are barriers of `Drain` and
`Flush`, and the jobs shed for the budget.
-/

import Mathlib.Data.List.AList

namespace Microide.Util

/-- The key a `PostLatest` replaces by; empty where a job has none. -/
abbrev JobKey := List UInt8

inductive Shedding where
  | critical
  | droppable
  deriving DecidableEq

structure Job where
  id : Nat
  key : JobKey := []
  /-- The function is not null. -/
  hasTask : Bool
  cancelled : Bool := false
  droppable : Bool := false
  runEvenIfCancelled : Bool := false
  durable : Bool := false
  deriving DecidableEq

/-- Where the worker is: waiting, with a job it took, with one it has run or skipped, gone. -/
inductive Worker where
  | idle
  | holding (job : Job)
  | finished (id : Nat)
  | exited
  deriving DecidableEq

structure SerialWorkQueue where
  queue : List Job := []
  /-- The node of each key; `none` is `queue_.end()`. -/
  keyedIndex : AList fun _ : JobKey => Option Nat := ∅
  worker : Worker := .idle
  started : Bool := false
  stop : Bool := false
  nextId : Nat := 0
  admitted : List Nat := []
  completed : List Nat := []
  ran : List Nat := []
  barriers : List Nat := []
  shed : List Job := []
  /-- A node that is gone was erased again. -/
  dangled : Bool := false

namespace SerialWorkQueue

/-! ### Locked helpers -/

def ensureStartedLocked (s : SerialWorkQueue) : SerialWorkQueue :=
  if s.started || s.stop then s else { s with started := true }

def withoutNode (s : SerialWorkQueue) (id : Nat) : List Job := s.queue.filter (·.id ≠ id)

/-- The index after a node leaves the queue: its entry goes only while it names this node. -/
def indexWithout (s : SerialWorkQueue) (job : Job) : AList fun _ : JobKey => Option Nat :=
  if job.key ≠ [] ∧ s.keyedIndex.lookup job.key = some (some job.id) then
    s.keyedIndex.erase job.key
  else s.keyedIndex

def eraseQueuedLocked (s : SerialWorkQueue) (job : Job) : SerialWorkQueue :=
  { s with
    keyedIndex := s.indexWithout job
    queue := s.withoutNode job.id
    completed := job.id :: s.completed }

/-- The job the budget sheds: the oldest that is droppable and not cancelled. -/
def toShed (maxDepth : Nat) (s : SerialWorkQueue) : Option Job :=
  if maxDepth = 0 ∨ s.queue.length < maxDepth then none
  else s.queue.find? fun job => job.droppable && !job.cancelled

def shedIfOverBudgetLocked (maxDepth : Nat) (s : SerialWorkQueue) : SerialWorkQueue :=
  match s.toShed maxDepth with
  | some job => { s.eraseQueuedLocked job with shed := job :: s.shed }
  | none => s

/-- `on_enqueue`, then the new node at the end. -/
def pushBack (s : SerialWorkQueue) (job : Nat → Job) : SerialWorkQueue :=
  { s with
    queue := s.queue ++ [job s.nextId]
    admitted := s.nextId :: s.admitted
    nextId := s.nextId + 1 }

/-- `on_enqueue`, then the new node at the front. -/
def pushFront (s : SerialWorkQueue) (job : Nat → Job) : SerialWorkQueue :=
  { s with
    queue := job s.nextId :: s.queue
    admitted := s.nextId :: s.admitted
    nextId := s.nextId + 1 }

/-- The slot of a key, taken from the job it names if it names one. -/
def supersede (s : SerialWorkQueue) (key : JobKey) : SerialWorkQueue :=
  let retargeted := { s with keyedIndex := s.keyedIndex.insert key none }
  match s.keyedIndex.lookup key with
  | some (some id) =>
    if s.queue.any (·.id = id) then
      { retargeted with queue := s.withoutNode id, completed := id :: s.completed }
    else { retargeted with dangled := true }
  | some none => { retargeted with dangled := true }
  | none => retargeted

def cancelAll (s : SerialWorkQueue) : List Job := s.queue.map fun job => { job with cancelled := true }

/-- Every queued job dropped, `on_complete` fired for each. -/
def clearQueue (s : SerialWorkQueue) : SerialWorkQueue :=
  { s with
    queue := []
    keyedIndex := ∅
    completed := s.queue.map (·.id) ++ s.completed }

/-! ### The locked sections of the callers -/

def post (maxDepth : Nat) (s : SerialWorkQueue) (hasTask : Bool) (shedding : Shedding) :
    SerialWorkQueue :=
  if s.stop then s
  else (s.ensureStartedLocked.shedIfOverBudgetLocked maxDepth).pushBack fun id =>
    { id := id, hasTask := hasTask, droppable := shedding = .droppable }

def postDurable (s : SerialWorkQueue) (hasTask : Bool) : SerialWorkQueue :=
  if s.stop then s
  else s.ensureStartedLocked.pushBack fun id => { id := id, hasTask := hasTask, durable := true }

def postFront (maxDepth : Nat) (s : SerialWorkQueue) (hasTask : Bool) : SerialWorkQueue :=
  if s.stop then s
  else (s.ensureStartedLocked.shedIfOverBudgetLocked maxDepth).pushFront fun id =>
    { id := id, hasTask := hasTask }

def postLatest (maxDepth : Nat) (s : SerialWorkQueue) (key : JobKey) (hasTask : Bool)
    (shedding : Shedding) : SerialWorkQueue :=
  if s.stop then s
  else
    let s := (s.ensureStartedLocked.supersede key).shedIfOverBudgetLocked maxDepth
    let node := s.nextId
    let s := s.pushBack fun id =>
      { id := id, key := key, hasTask := hasTask, droppable := shedding = .droppable }
    { s with keyedIndex := s.keyedIndex.insert key (some node) }

def cancel (s : SerialWorkQueue) : SerialWorkQueue :=
  { s with
    queue := s.queue.map fun job => { job with cancelled := job.cancelled || !job.durable }
    keyedIndex := ∅ }

/-- The barrier of a `Drain` or a `Flush`, posted at the end. -/
def pushBarrier (s : SerialWorkQueue) : SerialWorkQueue :=
  { s.pushBack fun id => { id := id, hasTask := true, runEvenIfCancelled := true } with
    barriers := s.nextId :: s.barriers }

/-- `Drain` up to its wait. -/
def drain (s : SerialWorkQueue) : SerialWorkQueue :=
  if s.stop || !s.started then s.clearQueue
  else pushBarrier { s with queue := s.cancelAll, keyedIndex := ∅ }

/-- `Flush` up to its wait. -/
def flush (s : SerialWorkQueue) : SerialWorkQueue :=
  if s.stop || !s.started then s else s.pushBarrier

/-- `Shutdown` up to its join. -/
def shutdown (s : SerialWorkQueue) : SerialWorkQueue :=
  if s.stop then s else { s with queue := s.cancelAll, keyedIndex := ∅, stop := true }

/-! ### Steps -/

inductive Action where
  | ensureStarted
  | post (hasTask : Bool) (shedding : Shedding)
  | postLatest (key : JobKey) (hasTask : Bool) (shedding : Shedding)
  | postFront (hasTask : Bool)
  | postDurable (hasTask : Bool)
  | cancel
  | drain
  | flush
  | shutdown
  /-- What `Shutdown` does after its first section where there is no thread to join. -/
  | clearUnstarted
  /-- The worker pops the front job. -/
  | take
  /-- It runs the job it holds, or skips it. -/
  | run
  /-- It fires `on_complete`. -/
  | complete
  /-- It leaves its loop. -/
  | exit

/-- The worker's pop. -/
def take (s : SerialWorkQueue) : Option SerialWorkQueue :=
  match s.worker, s.queue with
  | .idle, job :: rest =>
    if s.started then
      some { s with keyedIndex := s.indexWithout job, queue := rest, worker := .holding job }
    else none
  | _, _ => none

def run (s : SerialWorkQueue) : Option SerialWorkQueue :=
  match s.worker with
  | .holding job =>
    let runs := job.hasTask && (!job.cancelled || job.runEvenIfCancelled)
    some { s with worker := .finished job.id, ran := if runs then job.id :: s.ran else s.ran }
  | _ => none

def complete (s : SerialWorkQueue) : Option SerialWorkQueue :=
  match s.worker with
  | .finished id => some { s with worker := .idle, completed := id :: s.completed }
  | _ => none

def exit (s : SerialWorkQueue) : Option SerialWorkQueue :=
  if s.worker = .idle ∧ s.started ∧ s.stop ∧ s.queue = [] then some { s with worker := .exited }
  else none

/-- `none` where the action cannot happen in the state. -/
def step (maxDepth : Nat) (s : SerialWorkQueue) : Action → Option SerialWorkQueue
  | .ensureStarted => some s.ensureStartedLocked
  | .post hasTask shedding => some (s.post maxDepth hasTask shedding)
  | .postLatest key hasTask shedding => some (s.postLatest maxDepth key hasTask shedding)
  | .postFront hasTask => some (s.postFront maxDepth hasTask)
  | .postDurable hasTask => some (s.postDurable hasTask)
  | .cancel => some s.cancel
  | .drain => some s.drain
  | .flush => some s.flush
  | .shutdown => some s.shutdown
  | .clearUnstarted => if s.stop && !s.started then some s.clearQueue else none
  | .take => s.take
  | .run => s.run
  | .complete => s.complete
  | .exit => s.exit

/-- A run from a new queue: the states it went through, each with the action taken there (the
last first), and where it got to. -/
inductive Run (maxDepth : Nat) : List (SerialWorkQueue × Action) → SerialWorkQueue → Prop where
  | new : Run maxDepth [] {}
  | step {history : List (SerialWorkQueue × Action)} {s s' : SerialWorkQueue} (action : Action) :
      Run maxDepth history s → s.step maxDepth action = some s' →
      Run maxDepth ((s, action) :: history) s'

end SerialWorkQueue

end Microide.Util
