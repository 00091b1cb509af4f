/-
Every request is completed once.

A request's handler is in one place at a time: in the table, in the hands of the section that
took it out, or run. Only the section that follows a failed send drops it.

**Main results.** `accounted_effect`: every action keeps the account of the handlers;
`completion_exact`: over every run, in whatever order the sections of all threads come, a
handler runs at most once, never where the request returned 0, and once where it returned its
id and the connection has closed.
-/

import Microide.Remote.RemotePeer

namespace Microide.Remote

open List Lib Util

/-- The id a call waits under or returned; 0 is none. -/
def CallStage.id? : CallStage → Option Nat
  | .registered id | .admitted id | .queued id | .answered id _ => some id
  | .returned 0 => none
  | .returned (id + 1) => some (id + 1)

/-- What the account of the handlers is about. -/
structure Requests where
  nextRequestId : Nat
  pending : OrderedTable Nat PendingRequest
  closed : Bool
  calls : List Call
  taken : List (List (Nat × Completion))
  ran : List (Nat × Completion)

namespace Requests

/-- The calls whose handlers are in the table. -/
def waiting (r : Requests) : List Nat := r.pending.rows.map fun row => row.2.handler

/-- Those whose handlers were taken out and have not run. -/
def inHand (r : Requests) : List Nat := r.taken.flatten.map Prod.fst

def completed (r : Requests) : List Nat := r.ran.map Prod.fst

/-- Where the handler of call `i` is, each place counted. -/
def places (r : Requests) (i : Nat) : Nat :=
  r.waiting.count i + r.inHand.count i + r.completed.count i

/-- How many places the handler of a call is in. -/
def placesOf : Option Call → Nat
  | none => 0
  | some call => if call.stage = .returned 0 then 0 else 1

/-- The account: ids are not given twice, the table's entries are the calls' that wait under
them, each handler is in its one place, and a closed connection has no entry. -/
structure Accounted (r : Requests) : Prop where
  positive : 0 < r.nextRequestId
  given : ∀ (i : Nat) call id, r.calls[i]? = some call → call.stage.id? = some id →
    0 < id ∧ id < r.nextRequestId
  distinct : ∀ (i j : Nat) call call' id, r.calls[i]? = some call → r.calls[j]? = some call' →
    call.stage.id? = some id → call'.stage.id? = some id → i = j
  entries : ∀ id request, r.pending.find id = some request →
    ∃ call, r.calls[request.handler]? = some call ∧ call.stage.id? = some id
  once : ∀ i : Nat, r.places i = placesOf r.calls[i]?
  closed : r.closed = true → r.pending = .empty

end Requests

namespace RemotePeer

def requests (p : RemotePeer) : Requests :=
  { nextRequestId := p.nextRequestId
    pending := p.pending
    closed := p.closed
    calls := p.calls
    taken := p.taken
    ran := p.ran }

end RemotePeer

variable {i : Nat}

theorem getElem?_snoc {α : Type} {l : List α} {a b : α} (found : (l ++ [a])[i]? = some b) :
    l[i]? = some b ∨ i = l.length ∧ b = a := by
  rcases Nat.lt_trichotomy i l.length with before | at_ | after
  · rw [getElem?_append_left before] at found
    exact .inl found
  · rw [at_, getElem?_concat_length, Option.some.injEq] at found
    exact .inr ⟨at_, found.symm⟩
  · rw [getElem?_eq_none (by rw [length_append]; exact after)] at found
    cases found

/-- A new call adds its own places. -/
theorem Requests.placesOf_snoc (calls : List Call) (call : Call) (i : Nat) :
    placesOf (calls ++ [call])[i]? =
      placesOf calls[i]? + if i = calls.length then placesOf (some call) else 0 := by
  rcases Nat.lt_trichotomy i calls.length with before | rfl | after
  · rw [getElem?_append_left before, if_neg before.ne, Nat.add_zero]
  · rw [getElem?_concat_length, getElem?_eq_none le_rfl, if_pos rfl]
    exact (Nat.zero_add _).symm
  · rw [getElem?_eq_none after.le, if_neg after.ne',
      getElem?_eq_none (by rw [length_append]; exact after), Nat.add_zero]

variable {call : Call}

namespace Requests.Accounted

open RemotePeer

variable {p : RemotePeer}

theorem registered (h : p.requests.Accounted) (method : List UInt8) (params : JsonValue)
    (lane : Lane) (stamp : Option Int) :
    (registered method params lane stamp p).requests.Accounted := by
  have old : ∀ {call i}, p.calls[i]? = some call → i < p.calls.length := fun found =>
    (List.getElem?_eq_some_iff.mp found).1
  have fresh : p.pending.find p.nextRequestId = none := by
    cases found : p.pending.find p.nextRequestId with
    | none => rfl
    | some request =>
      obtain ⟨call, atCall, id⟩ := h.entries _ _ found
      exact absurd (h.given _ _ _ atCall id).2 (lt_irrefl _)
  unfold RemotePeer.registered
  split
  next closed =>
    refine ⟨h.positive, ?_, ?_, ?_, ?_, h.closed⟩
    · intro i call id found given
      rcases getElem?_snoc found with was | ⟨_, rfl⟩
      · exact h.given i call id was given
      · cases given
    · intro i j call call' id found found' given given'
      rcases getElem?_snoc found with was | ⟨_, rfl⟩
      · rcases getElem?_snoc found' with was' | ⟨_, rfl⟩
        · exact h.distinct i j call call' id was was' given given'
        · cases given'
      · cases given
    · intro id request found
      obtain ⟨call, atCall, given⟩ := h.entries id request found
      refine ⟨call, ?_, given⟩
      exact (getElem?_append_left (old atCall)).trans atCall
    · intro i
      have stays : placesOf (some ⟨method, params, lane, stamp, .returned 0⟩) = 0 := rfl
      have count := placesOf_snoc p.calls ⟨method, params, lane, stamp, .returned 0⟩ i
      rw [stays, ite_self, Nat.add_zero] at count
      exact (h.once i).trans count.symm
  next opened =>
    refine ⟨Nat.succ_pos _, ?_, ?_, ?_, ?_, fun closed => absurd closed opened⟩
    · intro i call id found given
      rcases getElem?_snoc found with was | ⟨_, rfl⟩
      · obtain ⟨positive, below⟩ := h.given i call id was given
        exact ⟨positive, Nat.lt_succ_of_lt below⟩
      · cases given
        exact ⟨h.positive, Nat.lt_succ_self _⟩
    · intro i j call call' id found found' given given'
      rcases getElem?_snoc found with was | ⟨rfl, rfl⟩
      · rcases getElem?_snoc found' with was' | ⟨_, rfl⟩
        · exact h.distinct i j call call' id was was' given given'
        · cases given'
          exact absurd (h.given i call _ was given).2 (lt_irrefl _)
      · rcases getElem?_snoc found' with was' | ⟨rfl, _⟩
        · cases given
          exact absurd (h.given j call' _ was' given').2 (lt_irrefl _)
        · rfl
    · intro id request found
      change (p.pending.set _ _).find id = some request at found
      rw [OrderedTable.find_set] at found
      split at found
      next same =>
        cases found
        cases same
        exact ⟨_, getElem?_concat_length, rfl⟩
      · obtain ⟨call, atCall, given⟩ := h.entries id request found
        exact ⟨call, (getElem?_append_left (old atCall)).trans atCall, given⟩
    · intro i
      have goes : placesOf (some ⟨method, params, lane, stamp, .registered p.nextRequestId⟩) = 1 :=
        rfl
      have count :=
        placesOf_snoc p.calls ⟨method, params, lane, stamp, .registered p.nextRequestId⟩ i
      rw [goes] at count
      have waits : (p.pending.set p.nextRequestId
          { handler := p.calls.length, heartbeat := stamp.isSome }).rows.Perm
            ((p.nextRequestId, { handler := p.calls.length, heartbeat := stamp.isSome }) ::
              p.pending.rows) :=
        OrderedTable.set_rows_perm _ fresh
      have counted := (waits.map fun row => row.2.handler).count_eq i
      rw [map_cons, count_cons] at counted
      have was := h.once i
      simp only [places, waiting, inHand, completed, requests] at was ⊢
      rw [count, counted, ← was]
      by_cases last : i = p.calls.length
      · simp only [last, beq_self_eq_true, if_true]
        omega
      · simp only [last, beq_iff_eq, Ne.symm last]
        omega

/-- A stage's change, as the other calls see it. -/
theorem getElem?_setStage (i j : Nat) (stage : CallStage) : (p.setStage i stage).calls[j]? =
      if i = j then (p.calls[j]?).map fun call => { call with stage } else p.calls[j]? := by
  rw [setStage, getElem?_modify]
  split <;> simp

/-- A call goes on under its id. -/
theorem setStage (h : p.requests.Accounted) {stage : CallStage} (atCall : p.calls[i]? = some call)
    (same : stage.id? = call.stage.id?) (live : stage ≠ .returned 0)
    (was : call.stage ≠ .returned 0) : (p.setStage i stage).requests.Accounted := by
  have old : ∀ {j : Nat} {now : Call}, (p.setStage i stage).calls[j]? = some now →
      ∃ before, p.calls[j]? = some before ∧ now.stage.id? = before.stage.id? := by
    intro j now found
    rw [getElem?_setStage] at found
    split at found
    next at_ =>
      cases at_
      rw [atCall, Option.map_some, Option.some.injEq] at found
      exact ⟨call, atCall, found ▸ same⟩
    · exact ⟨now, found, rfl⟩
  refine ⟨h.positive, ?_, ?_, ?_, ?_, h.closed⟩
  · intro j now id found given
    obtain ⟨before, found', same'⟩ := old found
    exact h.given j before id found' (same' ▸ given)
  · intro j k now now' id found found' given given'
    obtain ⟨before, was, same⟩ := old found
    obtain ⟨before', was', same'⟩ := old found'
    exact h.distinct j k before before' id was was' (same ▸ given) (same' ▸ given')
  · intro id request found
    obtain ⟨before, atBefore, given⟩ := h.entries id request found
    by_cases at_ : i = request.handler
    · refine ⟨{ before with stage }, ?_, ?_⟩
      · exact (getElem?_setStage i request.handler stage).trans
          (by rw [if_pos at_]; exact congrArg _ atBefore)
      · have one : before = call := by
          have both := atBefore
          rw [← at_] at both
          exact Option.some.inj (both.symm.trans atCall)
        exact same.trans (one ▸ given)
    · exact ⟨before, (getElem?_setStage i request.handler stage).trans
        (by rw [if_neg at_]; exact atBefore), given⟩
  · intro j
    have count := h.once j
    refine count.trans ?_
    change placesOf p.calls[j]? = placesOf (p.setStage i stage).calls[j]?
    rw [getElem?_setStage]
    split
    next at_ =>
      cases at_
      rw [atCall, Option.map_some, placesOf, placesOf, if_neg was, if_neg live]
    · rfl

/-- Handlers change their place; no entry is new. -/
theorem moved {r r' : Requests} (h : r.Accounted) (next : r'.nextRequestId = r.nextRequestId)
    (calls : r'.calls = r.calls)
    (entries : ∀ id request, r'.pending.find id = some request →
      ∃ request', r.pending.find id = some request' ∧ request'.handler = request.handler)
    (places : ∀ i, r'.places i = r.places i) (closed : r'.closed = true → r'.pending = .empty) :
    r'.Accounted := by
  refine ⟨next ▸ h.positive, ?_, ?_, ?_, ?_, closed⟩
  · rw [next, calls]
    exact h.given
  · rw [calls]
    exact h.distinct
  · intro id request found
    obtain ⟨request', found', same⟩ := entries id request found
    rw [calls, ← same]
    exact h.entries id request' found'
  · intro i
    rw [places, calls]
    exact h.once i

/-- Erasing an entry takes its handler's one place in the table. -/
theorem count_waiting {t : OrderedTable Nat PendingRequest} {id : Nat} {request : PendingRequest}
    (found : t.find id = some request) (i : Nat) : (t.rows.map fun row => row.2.handler).count i =
      ((t.erase id).rows.map fun row => row.2.handler).count i +
        if request.handler = i then 1 else 0 := by
  have counted := ((OrderedTable.erase_rows_perm found).map fun row => row.2.handler).count_eq i
  rw [map_cons, count_cons] at counted
  simpa only [beq_iff_eq] using counted

theorem takeResponse [JsonText] (h : p.requests.Accounted) (frame : Frame) :
    (takeResponse frame p).requests.Accounted := by
  unfold RemotePeer.takeResponse
  split
  · exact h
  next request found =>
    refine moved h rfl rfl ?_ ?_ ?_
    · intro id request' found'
      change (p.pending.erase _).find id = some request' at found'
      rw [OrderedTable.find_erase] at found'
      split at found'
      · cases found'
      · exact ⟨request', found', rfl⟩
    · intro i
      have count := count_waiting found i
      simp only [places, waiting, inHand, completed, requests, flatten_append,
        flatten_cons, flatten_nil, map_append, map_cons, map_nil,
        count_append, count_cons, count_nil, beq_iff_eq] at count ⊢
      omega
    · intro closed
      have nothing := h.closed closed
      change p.pending = .empty at nothing
      rw [nothing] at found
      cases found

theorem takeOrphans (h : p.requests.Accounted) (reason : String) :
    (takeOrphans reason p).requests.Accounted := by
  refine moved h rfl rfl ?_ ?_ fun _ => rfl
  · intro id request found
    cases found
  · intro i
    have orphans : (p.pending.rows.map fun row => (row.2.handler, Completion.error
        ⟨kErrorCancelled, ("connection closed: " ++ reason).toUTF8.toList⟩)).map Prod.fst =
          p.pending.rows.map fun row => row.2.handler := by
      rw [map_map]
      rfl
    simp only [places, waiting, inHand, completed, requests, RemotePeer.takeOrphans,
      OrderedTable.empty, flatten_append, flatten_cons, flatten_nil,
      map_append, count_append, orphans, map_nil, count_nil]
    omega

/-- What is left of one list, and its first. -/
theorem flatten_set_perm {α : Type} {lists : List (List α)} {j : Nat} {a : α} {rest : List α}
    (held : lists[j]? = some (a :: rest)) :
    lists.flatten.Perm (a :: (lists.set j rest).flatten) := by
  induction lists generalizing j with
  | nil => cases held
  | cons first later ih =>
    cases j with
    | zero =>
      cases held
      exact .refl _
    | succ j =>
      exact ((ih (j := j) held).append_left first).trans perm_middle

theorem runFirst (h : p.requests.Accounted) (j : Nat) : (p.runFirst j).requests.Accounted := by
  unfold RemotePeer.runFirst
  split
  next run rest held =>
    refine moved h rfl rfl (fun id request found => ⟨request, found, rfl⟩) ?_ h.closed
    intro i
    have count := ((flatten_set_perm held).map Prod.fst).count_eq i
    simp only [places, waiting, inHand, completed, requests, map_append, map_cons,
      map_nil, count_append, count_cons, count_nil] at count ⊢
    omega
  · exact h

/-- A failed send drops the handler, and its call returns 0. -/
theorem forgotten (h : p.requests.Accounted) {id : Nat} (atCall : p.calls[i]? = some call)
    (stage : call.stage = .answered id false) : (forgotten i id p).requests.Accounted := by
  have given : call.stage.id? = some id := by rw [stage]; rfl
  have live : call.stage ≠ .returned 0 := by rw [stage]; exact CallStage.noConfusion
  unfold RemotePeer.forgotten
  split
  next none =>
    obtain ⟨positive, _⟩ := h.given i call id atCall given
    obtain ⟨n, rfl⟩ := Nat.exists_eq_succ_of_ne_zero positive.ne'
    refine h.setStage atCall given.symm ?_ live
    intro zero
    cases zero
  next request found =>
    have mine : request.handler = i := by
      obtain ⟨call', atCall', given'⟩ := h.entries id request found
      exact h.distinct _ _ call' call id atCall' atCall given' given
    have stages : ∀ j : Nat, (({ p with pending := p.pending.erase id } : RemotePeer).setStage i
        (.returned 0)).calls[j]? = if i = j then (p.calls[j]?).map fun call =>
          { call with stage := .returned 0 } else p.calls[j]? :=
      fun j => getElem?_setStage (p := { p with pending := p.pending.erase id }) i j _
    have old : ∀ {j : Nat} {now : Call} {id' : Nat}, (({ p with pending := p.pending.erase id } :
        RemotePeer).setStage i (.returned 0)).calls[j]? = some now → now.stage.id? = some id' →
          p.calls[j]? = some now := by
      intro j now id' found given
      rw [stages] at found
      split at found
      next at_ =>
        cases at_
        rw [atCall] at found
        cases found
        cases given
      · exact found
    refine ⟨h.positive, ?_, ?_, ?_, ?_, ?_⟩
    · exact fun j now id' found given => h.given j now id' (old found given) given
    · exact fun j k now now' id' found found' given given' =>
        h.distinct j k now now' id' (old found given) (old found' given') given given'
    · intro id' request' found'
      change (p.pending.erase id).find id' = some request' at found'
      rw [OrderedTable.find_erase] at found'
      split at found'
      · cases found'
      next other =>
        obtain ⟨call', atCall', given'⟩ := h.entries id' request' found'
        refine ⟨call', (stages _).trans ?_, given'⟩
        have apart : i ≠ request'.handler := by
          rintro rfl
          have one : call' = call := Option.some.inj (atCall'.symm.trans atCall)
          rw [one, given] at given'
          cases given'
          exact other rfl
        rw [if_neg apart]
        exact atCall'
    · intro j
      have was := h.once j
      have count := count_waiting found j
      change _ = placesOf (({ p with pending := p.pending.erase id } : RemotePeer).setStage i
        (.returned 0)).calls[j]?
      rw [stages]
      simp only [places, waiting, inHand, completed, requests, mine, RemotePeer.setStage] at was count ⊢
      by_cases at_ : i = j
      · cases at_
        rw [atCall] at was ⊢
        simp only [placesOf, live, if_false, if_true, Option.map_some] at was count ⊢
        omega
      · rw [if_neg at_] at count ⊢
        rw [← was, count]
        rfl
    · intro closed
      have nothing := h.closed closed
      change p.pending = .empty at nothing
      rw [nothing] at found
      cases found

/-- A changed entry that keeps its handler is where it was. -/
theorem count_modify (t : OrderedTable Nat PendingRequest) (id : Nat)
    {f : PendingRequest → PendingRequest} (keeps : ∀ request, (f request).handler = request.handler)
    (i : Nat) : ((t.modify id f).rows.map fun row => row.2.handler).count i =
      (t.rows.map fun row => row.2.handler).count i := by
  unfold OrderedTable.modify
  split
  next request found =>
    have fresh : (t.erase id).find id = none := OrderedTable.find_erase_self t id
    have rows := OrderedTable.set_rows_perm (f request) fresh
    rw [OrderedTable.set_erase] at rows
    have counted := (rows.map fun row => row.2.handler).count_eq i
    rw [map_cons, count_cons, keeps] at counted
    rw [counted, count_waiting found i]
    simp only [beq_iff_eq]
  · rfl

section

variable (h : p.requests.Accounted)

include h

/-- A request that is marked as sent returns its id. -/
theorem markedSent {id : Nat} (atCall : p.calls[i]? = some call)
    (stage : call.stage = .answered id true) : (markedSent i id p).requests.Accounted := by
  have given : call.stage.id? = some id := by rw [stage]; rfl
  have live : call.stage ≠ .returned 0 := by rw [stage]; exact CallStage.noConfusion
  have marked : ({ p with pending := p.pending.modify id fun request =>
      { request with sent := true } } : RemotePeer).requests.Accounted := by
    refine moved h rfl rfl ?_ ?_ ?_
    · intro id' request found
      change (p.pending.modify _ _).find id' = some request at found
      rw [OrderedTable.find_modify] at found
      split at found
      next same =>
        cases same
        obtain ⟨request', found', rfl⟩ := Option.map_eq_some_iff.mp found
        exact ⟨request', found', rfl⟩
      · exact ⟨request, found, rfl⟩
    · intro j
      simp only [places, waiting, inHand, completed, requests, count_modify p.pending id
        (f := fun request => { request with sent := true }) (fun _ => rfl) j]
    · intro closed
      have nothing := h.closed closed
      change p.pending = .empty at nothing
      rw [nothing]
      rfl
  obtain ⟨positive, _⟩ := h.given i call id atCall given
  obtain ⟨n, rfl⟩ := Nat.exists_eq_succ_of_ne_zero positive.ne'
  refine marked.setStage atCall given.symm ?_ live
  intro zero
  cases zero

theorem advanced [JsonText] (i : Nat) : (advanced i p).requests.Accounted := by
  unfold RemotePeer.advanced
  split
  · exact h
  next call atCall =>
    split
    next id stage =>
      refine h.setStage atCall ?_ ?_ (by rw [stage]; exact CallStage.noConfusion)
      · rw [stage]
        split <;> rfl
      · split <;> exact CallStage.noConfusion
    next id stage =>
      have queued : ({ p with transport := p.transport.enqueue (requestFrame call id) } :
          RemotePeer).requests.Accounted := h
      exact queued.setStage atCall (by rw [stage]; rfl) CallStage.noConfusion
        (by rw [stage]; exact CallStage.noConfusion)
    next id stage =>
      exact h.setStage atCall (by rw [stage]; rfl) CallStage.noConfusion
        (by rw [stage]; exact CallStage.noConfusion)
    next id stage => exact h.forgotten atCall stage
    next id stage => exact h.markedSent atCall stage
    · exact h

theorem afterRun (j : Nat) (now : Int) : (p.afterRun j now).requests.Accounted := by
  unfold RemotePeer.afterRun
  split <;> exact h.runFirst j

theorem ticked (now : Int) : (p.ticked now).requests.Accounted := by
  unfold RemotePeer.ticked
  dsimp only
  split
  · exact h
  · split
    · exact h
    · exact registered (p := { p with heartbeat := (p.heartbeat.tick now).2 }) h _ _ _ _

theorem handled [JsonText] (frame : Frame) : (p.handled frame).requests.Accounted := by
  unfold RemotePeer.handled
  split
  · split <;> exact h
  · unfold noticed
    split
    · exact h
    · dsimp only
      split <;> exact h
  · exact h.takeResponse frame
  · exact h

end

end Requests.Accounted

namespace RemotePeer

variable [JsonText]

/-- **Every action keeps the account.** -/
theorem accounted_effect {p : RemotePeer} (h : p.requests.Accounted) (action : Action) :
    (p.effect action).requests.Accounted := by
  cases action with
  | request method params lane => exact h.registered method params lane none
  | call i => exact h.advanced i
  | receive frame target =>
    unfold effect received
    dsimp only
    split
    · exact h
    · exact Requests.Accounted.handled
        (p := { p with transport := p.transport.dispatch frame target }) h frame
  | runTaken j now => exact h.afterRun j now
  | closed reason => exact h.takeOrphans reason
  | tick now => exact h.ticked now
  | sendContent type =>
    unfold effect
    dsimp only
    split <;> exact h
  | cancel id =>
    unfold effect cancelled
    dsimp only
    split <;> exact h
  | _ => exact h

omit [JsonText] in
theorem accounted_start (handles : List UInt8 → Bool) (options : TransportOptions)
    (heartbeat : LinkHeartbeat) : (start handles options heartbeat).requests.Accounted := by
  refine ⟨Nat.one_pos, ?_, ?_, ?_, fun _ => rfl, fun _ => rfl⟩
  · intro i call id found
    cases found
  · intro i j call call' id found
    cases found
  · intro id request found
    cases found

theorem accounted_reachable {p p' : RemotePeer} (h : p.requests.Accounted)
    (reach : Reachable step p p') : p'.requests.Accounted := by
  refine reach.invariant (P := fun p => p.requests.Accounted) h ?_
  intro p action p' account taken
  rw [step_eq] at taken
  split at taken
  · cases taken
  · cases taken
    exact accounted_effect account action

/-! ### What a call returned -/

omit [JsonText] in
theorem calls_registered {p : RemotePeer} (atCall : p.calls[i]? = some call) (method : List UInt8)
    (params : JsonValue) (lane : Lane) (stamp : Option Int) :
    (registered method params lane stamp p).calls[i]? = some call := by
  have inside := (List.getElem?_eq_some_iff.mp atCall).1
  unfold registered
  split <;> exact (getElem?_append_left inside).trans atCall

/-- The sections of one call leave the others alone. -/
theorem calls_advanced_of_ne {p : RemotePeer} {j : Nat} (other : j ≠ i) :
    (advanced j p).calls[i]? = p.calls[i]? := by
  have stays : ∀ {p' : RemotePeer} {stage}, p'.calls = p.calls →
      (p'.setStage j stage).calls[i]? = p.calls[i]? := by
    intro p' stage same
    rw [Requests.Accounted.getElem?_setStage, if_neg other, same]
  unfold advanced
  split
  · rfl
  · split
    next => exact stays rfl
    next => exact stays rfl
    next => exact stays rfl
    next =>
      unfold forgotten
      split <;> exact stays rfl
    next => exact stays rfl
    next => rfl

/-- A call that returned has returned for good. -/
theorem returned_effect {p : RemotePeer} {n : Nat} (atCall : p.calls[i]? = some call)
    (returned : call.stage = .returned n) (action : Action) :
    (p.effect action).calls[i]? = some call := by
  cases action with
  | request => exact calls_registered atCall _ _ _ _
  | call j =>
    by_cases same : j = i
    · cases same
      unfold effect advanced
      simp only [atCall, returned]
    · exact (calls_advanced_of_ne same).trans atCall
  | receive frame target =>
    unfold effect received
    dsimp only
    split
    · exact atCall
    unfold handled
    split
    · split <;> exact atCall
    · unfold noticed
      split
      · exact atCall
      · dsimp only
        split <;> exact atCall
    · unfold takeResponse
      split <;> exact atCall
    · exact atCall
  | runTaken j now =>
    have first : (p.runFirst j).calls = p.calls := by
      unfold runFirst
      split <;> rfl
    unfold effect afterRun
    dsimp only
    split <;> exact (congrArg (fun calls : List Call => calls[i]?) first).trans atCall
  | tick now =>
    unfold effect ticked
    dsimp only
    split
    · exact atCall
    · split
      · exact atCall
      · exact calls_registered (p := { p with heartbeat := (p.heartbeat.tick now).2 }) atCall _ _ _ _
  | sendContent type =>
    unfold effect
    dsimp only
    split <;> exact atCall
  | cancel id =>
    unfold effect cancelled
    dsimp only
    split <;> exact atCall
  | _ => exact atCall

theorem returned_reachable {p p' : RemotePeer} {n : Nat} (atCall : p.calls[i]? = some call)
    (returned : call.stage = .returned n) (reach : Reachable step p p') :
    p'.calls[i]? = some call := by
  refine reach.invariant (P := fun p => p.calls[i]? = some call) atCall ?_
  intro p action p' atCall taken
  rw [step_eq] at taken
  split at taken
  · cases taken
  · cases taken
    exact returned_effect atCall returned action

/-- How often the handler of call `i` ran. -/
def runs (p : RemotePeer) (i : Nat) : Nat := (p.ran.map Prod.fst).count i

/-- The connection has closed: no request is registered any more, and whoever took handlers out
of the table has run them. -/
def HasClosed (p : RemotePeer) : Prop := p.closed = true ∧ p.taken.flatten = []

instance (p : RemotePeer) : Decidable (HasClosed p) := by
  unfold HasClosed
  have : Decidable (p.taken.flatten = []) := decidable_of_iff _ List.isEmpty_iff
  infer_instance

/-- Over every run of the sections of any threads, responses of any kind, closes and stops: a
handler runs at most once; where its request returned 0 it has not run, and never will; where
the request returned its id and the connection has closed, it ran once. -/
theorem completion_exact {handles : List UInt8 → Bool} {options : TransportOptions}
    {heartbeat : LinkHeartbeat} {p : RemotePeer}
    (reach : Reachable step (start handles options heartbeat) p) {i : Nat} {call : Call}
    (atCall : p.calls[i]? = some call) :
    p.runs i ≤ 1 ∧
    (call.stage = .returned 0 → ∀ p', Reachable step p p' → p'.runs i = 0) ∧
    ∀ id, id ≠ 0 → call.stage = .returned id → p.HasClosed → p.runs i = 1 := by
  have account := accounted_reachable (accounted_start handles options heartbeat) reach
  have once := account.once i
  have place : p.requests.calls[i]? = some call := atCall
  rw [place] at once
  refine ⟨?_, ?_, ?_⟩
  · have most : Requests.placesOf (some call) ≤ 1 := by
      unfold Requests.placesOf
      dsimp only
      split <;> decide
    exact ((Nat.le_add_left _ _).trans once.le).trans most
  · intro none p' later
    have once' := (accounted_reachable account later).once i
    have place' : p'.requests.calls[i]? = some call := returned_reachable atCall none later
    rw [place', Requests.placesOf, if_pos none] at once'
    exact Nat.eq_zero_of_add_eq_zero_left once'
  · intro id positive returned closed
    have live : call.stage ≠ .returned 0 := by
      rw [returned]
      intro zero
      cases zero
      exact positive rfl
    have nobodyWaits : p.requests.waiting = [] := by
      have empty := account.closed closed.1
      rw [Requests.waiting, empty]
      rfl
    have nobodyHolds : p.requests.inHand = [] := congrArg (List.map Prod.fst) closed.2
    rw [Requests.placesOf, if_neg live, Requests.places, nobodyWaits, nobodyHolds,
      count_nil, Nat.zero_add] at once
    exact once

/-! ### A request that the close overtakes -/

omit [JsonText]

/-- The text of the one request that is sent. -/
@[reducible] def overtakenText : JsonText where
  parseJson _ := none
  serializeJson _ := "\x7b\"method\":\"m\",\"params\":null\x7d".toUTF8.toList
  clampedInt _ := none

/-- The close takes the request after its registration and before its send. -/
def overtaken : List Action :=
  [.request "m".toUTF8.toList .null .interactive, .close .peerClosed,
    .closed CloseReason.peerClosed.text, .call 0, .runTaken 0 0, .call 0]

def overtakenEnd : RemotePeer :=
  overtaken.foldl (@effect overtakenText) (start (fun _ => false) {} {})

theorem overtaken_reachable :
    Reachable (@step overtakenText) (start (fun _ => false) {} {}) overtakenEnd := by
  let text := overtakenText
  have runs : ∀ (actions : List Action) (p : RemotePeer),
      (∀ action ∈ actions, ∀ p : RemotePeer, ¬p.SelfLocks action) →
        Reachable step p (actions.foldl effect p) := by
    intro actions
    induction actions with
    | nil => exact fun p _ => .start
    | cons action rest ih =>
      intro p free
      have first : p.step action = some (p.effect action) := by
        rw [step_eq]
        exact if_neg (free action mem_cons_self p)
      exact (Reachable.step action .start first).trans
        (ih _ fun other mem => free other (mem_cons_of_mem _ mem))
  refine runs overtaken _ fun action mem p => ?_
  simp only [overtaken, mem_cons, not_mem_nil, or_false] at mem
  rcases mem with rfl | rfl | rfl | rfl | rfl | rfl <;> exact id

theorem completion_exact_overtaken : overtakenEnd.runs 0 = 1 :=
  ((@completion_exact overtakenText _ _ _ _ overtaken_reachable 0 _ rfl).2.2) 1 (by decide) rfl
    ⟨rfl, rfl⟩

end RemotePeer

end Microide.Remote
