/-
Runs of a machine, and one thread's programs over a mutex.

A machine takes one action at a time and may stop at one; what every step keeps, every
reachable state has. A thread's program over a state behind a non-recursive mutex stops where
it takes the mutex while it holds it: it then waits for itself.

**Main results.** `Reachable.invariant`: the induction over a run; `Leaves` and its rules:
what a program computes from a free mutex that it leaves free.
-/

namespace Microide.Lib

/-! ### Runs -/

section Runs

variable {σ ι : Type} {step : σ → ι → Option σ} {start : σ}

/-- The states the machine gets to. -/
inductive Reachable (step : σ → ι → Option σ) (start : σ) : σ → Prop where
  | start : Reachable step start start
  | step {s s' : σ} (action : ι) : Reachable step start s → step s action = some s' →
      Reachable step start s'

/-- What holds at the start and is kept by every step holds in every reachable state. -/
theorem Reachable.invariant {P : σ → Prop} (first : P start)
    (kept : ∀ s action s', P s → step s action = some s' → P s') {s : σ}
    (reach : Reachable step start s) : P s := by
  induction reach with
  | start => exact first
  | step action _ taken ih => exact kept _ action _ ih taken

theorem Reachable.trans {middle s : σ} (before : Reachable step start middle)
    (after : Reachable step middle s) : Reachable step start s := by
  induction after with
  | start => exact before
  | step action _ taken ih => exact .step action ih taken

end Runs

/-! ### Programs over a mutex -/

/-- A state, and whether this thread holds the mutex in front of it. -/
structure Guarded (σ : Type) where
  locked : Bool := false
  value : σ

/-- A program of one thread: `none` where it waits for itself. -/
abbrev Locking (σ : Type) := StateT (Guarded σ) Option

namespace Locking

variable {σ α β : Type}

def act (f : σ → α × σ) : Locking σ α := fun g =>
  some ((f g.value).1, { g with value := (f g.value).2 })

/-- `std::lock_guard` over the scope `body`. -/
def lockGuard (body : Locking σ α) : Locking σ α := fun g =>
  if g.locked then none
  else (body { g with locked := true }).map fun (a, g') => (a, { g' with locked := false })

/-- The program from a free mutex. -/
def exec (program : Locking σ α) (s : σ) : Option (α × σ) :=
  (program ⟨false, s⟩).map fun (a, g) => (a, g.value)

/-- A program whose first part waits for itself. -/
theorem bind_of_none {program : Locking σ α} {g : Guarded σ} (stuck : program g = none)
    (next : α → Locking σ β) : (program >>= next) g = none := by
  change (program g).bind (fun (a, g') => next a g') = none
  rw [stuck]
  rfl

theorem bind_of_some {program : Locking σ α} {g g' : Guarded σ} {a : α}
    (done : program g = some (a, g')) (next : α → Locking σ β) :
    (program >>= next) g = next a g' := by
  change (program g).bind (fun (a, g') => next a g') = next a g'
  rw [done]
  rfl

theorem discard_of_none {program : Locking σ α} {g : Guarded σ} (stuck : program g = none) :
    Functor.discard program g = none := by
  change (program g).bind (fun (_, g') => some (PUnit.unit, g')) = none
  rw [stuck]
  rfl

theorem lockGuard_of_none {body : Locking σ α} {s : σ} (stuck : body ⟨true, s⟩ = none) :
    lockGuard body ⟨false, s⟩ = none := by
  change (body ⟨true, s⟩).map _ = none
  rw [stuck]
  rfl

/-- From a free mutex `program` computes `f` and leaves the mutex free. -/
def Leaves (program : Locking σ α) (f : σ → α × σ) : Prop :=
  ∀ s, program ⟨false, s⟩ = some ((f s).1, ⟨false, (f s).2⟩)

theorem Leaves.exec {program : Locking σ α} {f : σ → α × σ} (leaves : Leaves program f) (s : σ) :
    program.exec s = some (f s) := by
  rw [Locking.exec, leaves s]
  rfl

theorem leaves_act (f : σ → α × σ) : Leaves (act f) f := fun _ => rfl

theorem leaves_lockGuard_act (f : σ → α × σ) : Leaves (lockGuard (act f)) f := fun _ => rfl

theorem Leaves.bind {program : Locking σ α} {next : α → Locking σ β} {f : σ → α × σ}
    {g : α → σ → β × σ} (first : Leaves program f) (rest : ∀ a, Leaves (next a) (g a)) :
    Leaves (program >>= next) fun s => g (f s).1 (f s).2 := by
  intro s
  rw [bind_of_some (first s)]
  exact rest _ _

theorem discard_of_some {program : Locking σ α} {g g' : Guarded σ} {a : α}
    (done : program g = some (a, g')) : Functor.discard program g = some ((), g') := by
  change (program g).bind (fun (_, g'') => some (PUnit.unit, g'')) = _
  rw [done]
  rfl

theorem Leaves.discard {program : Locking σ α} {f : σ → α × σ} (leaves : Leaves program f) :
    Leaves (Functor.discard program) fun s => ((), (f s).2) := by
  intro s
  exact discard_of_some (leaves s)

/-- A thread that takes the mutex it holds waits for itself. -/
theorem lockGuard_locked (body : Locking σ α) (s : σ) : lockGuard body ⟨true, s⟩ = none := rfl

end Locking

end Microide.Lib
