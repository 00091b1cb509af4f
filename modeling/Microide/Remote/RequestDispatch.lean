/-
What becomes of an incoming request.

A request is replied to at once where it is malformed, a ping or of an unknown method, and is
put in flight and handled otherwise. Over the limit the reply waits for its own thread.

**Main result.** `requests_exact_iff`: a request gets its one response or its one run of its
handler exactly where the transport takes the direct reply, or a request with a handler meets
fewer than `kMaxPendingIncoming` in flight; no other action waits for itself.
-/

import Microide.Remote.RemotePeer

namespace Microide.Remote

open Lib Util Finset JsonValue

variable {p : RemotePeer} {frame : Frame}

namespace RemotePeer

variable [JsonText]

/-! ### What is in flight -/

omit [JsonText] in
@[simp] theorem incomingInFlight_registered (method : List UInt8) (params : JsonValue)
    (lane : Lane) (stamp : Option Int) (p : RemotePeer) :
    (registered method params lane stamp p).incomingInFlight = p.incomingInFlight := by
  unfold registered
  split <;> rfl

@[simp] theorem incomingInFlight_advanced (i : Nat) (p : RemotePeer) :
    (advanced i p).incomingInFlight = p.incomingInFlight := by
  unfold advanced
  split
  · rfl
  · split
    next => rfl
    next => rfl
    next => rfl
    next =>
      unfold forgotten
      split <;> rfl
    next => rfl
    next => rfl

omit [JsonText] in
@[simp] theorem incomingInFlight_afterRun (j : Nat) (now : Int) (p : RemotePeer) :
    (p.afterRun j now).incomingInFlight = p.incomingInFlight := by
  have first : (p.runFirst j).incomingInFlight = p.incomingInFlight := by
    unfold runFirst
    split <;> rfl
  unfold afterRun
  split <;> exact first

omit [JsonText] in
@[simp] theorem incomingInFlight_ticked (now : Int) (p : RemotePeer) :
    (p.ticked now).incomingInFlight = p.incomingInFlight := by
  unfold ticked
  dsimp only
  split
  · rfl
  · split
    · rfl
    · exact incomingInFlight_registered _ _ _ _ _

@[simp] theorem incomingInFlight_takeResponse (frame : Frame) (p : RemotePeer) :
    (takeResponse frame p).incomingInFlight = p.incomingInFlight := by
  unfold takeResponse
  split <;> rfl

@[simp] theorem incomingInFlight_noticed (frame : Frame) (p : RemotePeer) :
    (p.noticed frame).incomingInFlight = p.incomingInFlight := by
  unfold noticed
  split
  · rfl
  · dsimp only
    split <;> rfl

@[simp] theorem incomingInFlight_cancelled (id : Nat) (p : RemotePeer) :
    (p.cancelled id).incomingInFlight = p.incomingInFlight := by
  unfold cancelled
  split <;> rfl

/-- A request is run only where another may be put in flight. -/
theorem room_of_run {name : List UInt8} (way : p.requestWay frame = .run name) :
    p.incomingInFlight.card < kMaxPendingIncoming := by
  unfold requestWay at way
  split at way
  · cases way
  · split at way
    · cases way
    split at way
    · cases way
    split at way
    · cases way
    next room => exact Nat.lt_of_not_le room

/-- An action takes requests out of flight, or puts one in where there is room. -/
theorem inFlight_effect (p : RemotePeer) (action : Action) :
    (p.effect action).incomingInFlight ⊆ p.incomingInFlight ∨
      ∃ id, (p.effect action).incomingInFlight = insert id p.incomingInFlight ∧
        p.incomingInFlight.card < kMaxPendingIncoming := by
  have same : ∀ {p' : RemotePeer}, p'.incomingInFlight = p.incomingInFlight →
      p'.incomingInFlight ⊆ p.incomingInFlight ∨
        ∃ id, p'.incomingInFlight = insert id p.incomingInFlight ∧
          p.incomingInFlight.card < kMaxPendingIncoming := fun h => .inl h.subset
  cases action with
  | request => exact same (incomingInFlight_registered _ _ _ _ _)
  | call i => exact same (incomingInFlight_advanced i p)
  | receive frame target =>
    unfold effect received
    dsimp only
    split
    · exact same rfl
    unfold handled
    split
    · cases way : requestWay { p with transport := p.transport.dispatch frame target } frame with
      | answer reply => exact .inl (erase_subset _ _)
      | run name => exact .inr ⟨frame.id, rfl, room_of_run (p := p) way⟩
      | stuck => exact same rfl
    · exact same (incomingInFlight_noticed _ _)
    · exact same (incomingInFlight_takeResponse _ _)
    · exact same rfl
  | runTaken j now => exact same (incomingInFlight_afterRun j now p)
  | tick now => exact same (incomingInFlight_ticked now p)
  | reply => exact .inl (erase_subset _ _)
  | replyError => exact .inl (erase_subset _ _)
  | sendContent type =>
    unfold effect
    dsimp only
    split <;> exact same rfl
  | cancel id => exact same (incomingInFlight_cancelled id p)
  | _ => exact same rfl

/-- **Never more in flight than the limit.** -/
theorem inFlight_le {handles : List UInt8 → Bool} {options : TransportOptions}
    {heartbeat : LinkHeartbeat} (reach : Reachable step (start handles options heartbeat) p) :
    p.incomingInFlight.card ≤ kMaxPendingIncoming := by
  refine reach.invariant (P := fun p => p.incomingInFlight.card ≤ kMaxPendingIncoming)
    (Nat.zero_le _) ?_
  intro p action p' within taken
  rw [step_eq] at taken
  split at taken
  · cases taken
  cases taken
  rcases inFlight_effect p action with fewer | ⟨id, entered, room⟩
  · exact (card_le_card fewer).trans within
  · rw [entered]
    exact (card_insert_le _ _).trans room

/-! ### One answer or one run -/

/-- The reply a request gets without a handler: it is malformed, a ping, or of a method that
has none. -/
def directReply (handles : List UInt8 → Bool) (frame : Frame) : Option Frame :=
  match methodOf frame.payload with
  | none => some (errorFrame frame.id kErrorProtocol "malformed request".toUTF8.toList)
  | some (name, params) =>
      if name = kLinkPing then some (replyFrame frame.id params .interactive)
      else if !handles name then
        some (errorFrame frame.id kErrorUnknownMethod ("unknown method ".toUTF8.toList ++ name))
      else none

/-- A request with a handler is run or, at the limit, stuck; every other is answered. -/
theorem requestWay_eq (p : RemotePeer) (frame : Frame) :
    ∃ name, p.requestWay frame = match directReply p.handles frame with
      | some reply => .answer reply
      | none => if kMaxPendingIncoming ≤ p.incomingInFlight.card then .stuck else .run name := by
  unfold requestWay directReply
  cases methodOf frame.payload with
  | none => exact ⟨[], rfl⟩
  | some named =>
    refine ⟨named.1, ?_⟩
    dsimp only
    by_cases ping : named.1 = kLinkPing
    · rw [if_pos ping, if_pos ping]
    · rw [if_neg ping, if_neg ping]
      cases p.handles named.1 <;> rfl

theorem directReply_is_response {handles : List UInt8 → Bool} {reply : Frame}
    (direct : directReply handles frame = some reply) :
    reply.type = .response ∧ reply.id = frame.id := by
  unfold directReply at direct
  split at direct
  · cases direct
    exact ⟨rfl, rfl⟩
  · split at direct
    · cases direct
      exact ⟨rfl, rfl⟩
    · split at direct
      · cases direct
        exact ⟨rfl, rfl⟩
      · cases direct

/-- One response frame for `id` was queued. -/
def SendsResponse (id : UInt64) (p p' : RemotePeer) : Prop :=
  ∃ reply : Frame, reply.type = .response ∧ reply.id = id ∧
    p'.transport.accepted = p.transport.accepted ++ [reply]

/-- `id` is put in flight and its handler ran once. -/
def RunsHandler (id : UInt64) (p p' : RemotePeer) : Prop :=
  p'.incomingInFlight = insert id p.incomingInFlight ∧
    ∃ name, p'.dispatched = p.dispatched ++ [(id, name)]

/-- What is owed to a request: the thread goes on, with exactly one of the two done. -/
def Served (p : RemotePeer) (frame : Frame) (target : Option Nat) : Prop :=
  ∃ p', p.step (.receive frame target) = some p' ∧
    Xor (SendsResponse frame.id p p') (RunsHandler frame.id p p') ∧
    p'.incomingInFlight.card ≤ kMaxPendingIncoming

/-- The transport takes the direct reply; where there is none, another request may be put in
flight. -/
def CanServe (p : RemotePeer) (frame : Frame) (target : Option Nat) : Prop :=
  match directReply p.handles frame with
  | some reply => (p.transport.dispatch frame target).Takes reply
  | none => p.incomingInFlight.card < kMaxPendingIncoming

instance (p : RemotePeer) (frame : Frame) (target : Option Nat) :
    Decidable (p.CanServe frame target) := by
  unfold CanServe; split <;> infer_instance

omit [JsonText] in
/-- What the peer sends is not what its transport acknowledges. -/
theorem accepted_dispatch (content : frame.type ≠ .ack) (t : FrameTransport) (target : Option Nat) :
    (t.dispatch frame target).accepted = t.accepted := by
  unfold FrameTransport.dispatch
  rw [if_neg content]
  cases frame.lane with
  | interactive => rfl
  | bulk =>
    dsimp only
    split <;> rfl

/-- A step that receives a request. -/
theorem step_request (request : frame.type = .request) (target : Option Nat) :
    p.step (.receive frame target) = if p.requestWay frame = .stuck then none
      else some ({ p with transport := p.transport.dispatch frame target }.handled frame) := by
  have content : frame.type ≠ .ack := by rw [request]; decide
  have stuck : p.SelfLocks (.receive frame target) ↔ p.requestWay frame = .stuck :=
    ⟨fun h => h.2, fun h => ⟨request, h⟩⟩
  rw [step_eq, if_congr stuck rfl rfl, effect, received, if_neg content]

/-- A direct reply is one response, where the transport takes it, and no run. -/
theorem served_iff_of_reply {reply : Frame} {target : Option Nat}
    (within : p.incomingInFlight.card ≤ kMaxPendingIncoming) (request : frame.type = .request)
    (direct : directReply p.handles frame = some reply) :
    p.Served frame target ↔ (p.transport.dispatch frame target).Takes reply := by
  have content : frame.type ≠ .ack := by rw [request]; decide
  obtain ⟨name, way⟩ := p.requestWay_eq frame
  rw [direct] at way
  obtain ⟨p', atP'⟩ : ∃ p', p' = ({ p with
    transport := p.transport.dispatch frame target }.settled frame.id).afterSend reply := ⟨_, rfl⟩
  have taken : p.step (.receive frame target) = some p' := by
    have wayAfter : requestWay { p with transport := p.transport.dispatch frame target } frame =
        .answer reply := way
    rw [step_request request, way, if_neg (by simp), atP', handled, request]
    rw [wayAfter]
  have accepted : p'.transport.accepted = if (p.transport.dispatch frame target).Takes reply
      then p.transport.accepted ++ [reply] else p.transport.accepted := by
    rw [atP', ← accepted_dispatch content p.transport target]
    exact FrameTransport.accepted_send _ reply
  have noRun : ¬RunsHandler frame.id p p' := by
    rintro ⟨_, name, ran⟩
    have same : p'.dispatched = p.dispatched := by rw [atP']; rfl
    simp [same] at ran
  have fewer : p'.incomingInFlight.card ≤ kMaxPendingIncoming := by
    refine le_trans (card_le_card ?_) within
    rw [atP']
    exact erase_subset _ _
  constructor
  · rintro ⟨p'', step, one, _⟩
    rw [taken] at step
    cases step
    rcases one with ⟨⟨other, _, _, sent⟩, _⟩ | ⟨ran, _⟩
    · by_contra refused
      rw [accepted, if_neg refused] at sent
      simp at sent
    · exact absurd ran noRun
  · intro takes
    obtain ⟨response, id⟩ := directReply_is_response direct
    refine ⟨p', taken, .inl ⟨⟨reply, response, id, ?_⟩, noRun⟩, fewer⟩
    rw [accepted, if_pos takes]

/-- A request with a handler is run where there is room for it, and stuck where there is not. -/
theorem served_iff_of_handler {target : Option Nat} (request : frame.type = .request)
    (direct : directReply p.handles frame = none) :
    p.Served frame target ↔ p.incomingInFlight.card < kMaxPendingIncoming := by
  have content : frame.type ≠ .ack := by rw [request]; decide
  obtain ⟨name, way⟩ := p.requestWay_eq frame
  rw [direct] at way
  constructor
  · rintro ⟨p', step, _⟩
    by_contra full
    rw [step_request request, way] at step
    simp [Nat.not_lt.mp full] at step
  · intro room
    have free : ¬kMaxPendingIncoming ≤ p.incomingInFlight.card := Nat.not_le.mpr room
    simp only [free, if_false] at way
    obtain ⟨p', atP'⟩ : ∃ p', p' = { p with
      transport := p.transport.dispatch frame target }.run frame.id name := ⟨_, rfl⟩
    have taken : p.step (.receive frame target) = some p' := by
      have wayAfter : requestWay { p with transport := p.transport.dispatch frame target } frame =
          .run name := way
      rw [step_request request, way, if_neg (by simp), atP', handled, request]
      rw [wayAfter]
    have sentNothing : p'.transport.accepted = p.transport.accepted := by
      rw [atP']
      exact accepted_dispatch content p.transport target
    have noResponse : ¬SendsResponse frame.id p p' := by
      rintro ⟨reply, _, _, sent⟩
      simp [sentNothing] at sent
    refine ⟨p', taken, .inr ⟨⟨?_, name, ?_⟩, noResponse⟩, ?_⟩
    · rw [atP']; rfl
    · rw [atP']; rfl
    · rw [atP']
      exact (card_insert_le _ _).trans room

/-- A request in any state of a run gets its one response or its one run exactly where the
transport takes its direct reply or, with a handler for it, fewer than the limit are in
flight; the limit is never exceeded; and no action's thread waits for itself but that of a
request with a handler at the limit. -/
theorem requests_exact_iff {handles : List UInt8 → Bool} {options : TransportOptions}
    {heartbeat : LinkHeartbeat} {p : RemotePeer}
    (reach : Reachable step (start handles options heartbeat) p) :
    (∀ frame target, frame.type = .request → (p.Served frame target ↔ p.CanServe frame target)) ∧
    p.incomingInFlight.card ≤ kMaxPendingIncoming ∧
    ∀ action, p.step action = none ↔ ∃ frame target, action = .receive frame target ∧
      frame.type = .request ∧ directReply p.handles frame = none ∧
      p.incomingInFlight.card = kMaxPendingIncoming := by
  have within := inFlight_le reach
  refine ⟨?_, within, ?_⟩
  · intro frame target request
    unfold CanServe
    cases direct : directReply p.handles frame with
    | some reply => exact served_iff_of_reply within request direct
    | none => exact served_iff_of_handler request direct
  · intro action
    rw [step_eq]
    constructor
    · intro none
      split at none
      next locks =>
        cases action with
        | receive frame target =>
          obtain ⟨request, stuck⟩ := locks
          obtain ⟨name, way⟩ := p.requestWay_eq frame
          rw [stuck] at way
          cases direct : directReply p.handles frame with
          | some reply => simp [direct] at way
          | none =>
            simp only [direct] at way
            split at way
            next full => exact ⟨frame, target, rfl, request, direct, within.antisymm full⟩
            · cases way
        | _ => exact locks.elim
      · cases none
    · rintro ⟨frame, target, rfl, request, direct, full⟩
      obtain ⟨name, way⟩ := p.requestWay_eq frame
      simp only [direct, full, le_refl, if_true] at way
      exact if_pos ⟨request, way⟩

/-! ### A flood of requests -/

omit [JsonText]

/-- The bytes of an object whose one member is the method `m`. -/
def floodPayload : List UInt8 := "\x7b\"method\":\"m\"\x7d".toUTF8.toList

/-- The texts of a flood: its request, and the refusal of any other. -/
@[reducible] def floodText : JsonText where
  parseJson text :=
    if text = floodPayload then
      some (.object [("method".toUTF8.toList, .string "m".toUTF8.toList)])
    else none
  serializeJson _ :=
    "\x7b\"error\":\x7b\"code\":-32600,\"message\":\"malformed request\"\x7d\x7d".toUTF8.toList
  clampedInt _ := none

def floodStart : RemotePeer := start (fun name => name = "m".toUTF8.toList) {} {}

def floodRequest (n : Nat) : Frame :=
  { type := .request, id := UInt64.ofNat n, payload := floodPayload }

/-- Nothing is sent and a request that is no object is refused. -/
theorem requests_exact_iff_malformed :
    @Served floodText floodStart { type := .request, id := 7, payload := [] } none := by
  let text := floodText
  exact ((requests_exact_iff .start).1 _ _ rfl).mpr (by decide +kernel)

theorem methodOf_flood : @methodOf floodText floodPayload = some ("m".toUTF8.toList, .null) := by
  have parsed : @wellFormed floodText floodPayload =
      some (.object [("method".toUTF8.toList, .string "m".toUTF8.toList)]) := by
    have parses : floodText.parseJson floodPayload =
        some (.object [("method".toUTF8.toList, .string "m".toUTF8.toList)]) := if_pos rfl
    exact (congrArg (Option.filter isObject) parses).trans rfl
  have fields : field (.object [("method".toUTF8.toList, .string "m".toUTF8.toList)])
      "params" = .null := by
    have other : ("params".toUTF8.toList == "method".toUTF8.toList) = false := by decide +kernel
    unfold field
    dsimp only
    rw [List.lookup_cons, other]
    rfl
  have method : field (.object [("method".toUTF8.toList, .string "m".toUTF8.toList)])
      "method" = .string "m".toUTF8.toList := by
    unfold field
    dsimp only
    rw [List.lookup_cons_self]
    rfl
  unfold methodOf
  rw [parsed, Option.bind_some, fields, method]
  rfl

theorem directReply_flood (n : Nat) :
    @directReply floodText floodStart.handles (floodRequest n) = none := by
  have other : "m".toUTF8.toList ≠ kLinkPing := by decide +kernel
  have known : floodStart.handles "m".toUTF8.toList = true := decide_eq_true rfl
  unfold directReply floodRequest
  rw [methodOf_flood]
  dsimp only
  rw [if_neg other, known]
  rfl

/-- A flood fills the set of requests in flight. -/
theorem flood (n : Nat) (within : n ≤ kMaxPendingIncoming) :
    ∃ p, Reachable (@step floodText) floodStart p ∧ p.handles = floodStart.handles ∧
      p.incomingInFlight = (range n).image UInt64.ofNat := by
  let text := floodText
  induction n with
  | zero => exact ⟨floodStart, .start, rfl, rfl⟩
  | succ n ih =>
    obtain ⟨p, reach, handles, inFlight⟩ := ih (Nat.le_of_succ_le within)
    have room : p.incomingInFlight.card < kMaxPendingIncoming := by
      rw [inFlight]
      exact (card_image_le.trans_eq (card_range n)).trans_lt within
    have direct : directReply p.handles (floodRequest n) = none := by
      rw [handles]
      exact directReply_flood n
    obtain ⟨name, way⟩ := p.requestWay_eq (floodRequest n)
    simp only [direct, Nat.not_le.mpr room, if_false] at way
    have request : (floodRequest n).type = .request := rfl
    have taken := step_request request none (p := p)
    have runs : ({ p with transport := p.transport.dispatch (floodRequest n) none }.handled
        (floodRequest n)) = ({ p with
          transport := p.transport.dispatch (floodRequest n) none }.run (UInt64.ofNat n) name) := by
      have wayAfter : requestWay { p with
          transport := p.transport.dispatch (floodRequest n) none } (floodRequest n) =
            .run name := way
      rw [handled, request]
      rw [wayAfter]
      rfl
    rw [way, if_neg (by simp), runs] at taken
    refine ⟨_, .step _ reach taken, handles, ?_⟩
    rw [range_add_one, image_insert, ← inFlight]
    rfl

/-- A request at the limit is not served: its thread waits for itself. -/
theorem request_at_limit_not_served :
    ¬∀ p, Reachable (@step floodText) floodStart p → ∀ frame, frame.type = .request →
      @Served floodText p frame none := by
  let text := floodText
  intro all
  obtain ⟨p, reach, handles, inFlight⟩ := flood kMaxPendingIncoming le_rfl
  have full : p.incomingInFlight.card = kMaxPendingIncoming := by
    rw [inFlight, Finset.card_image_of_injOn, Finset.card_range]
    intro a ha b hb same
    have small : ∀ {n : Nat}, n ∈ Finset.range kMaxPendingIncoming → n < 2 ^ 64 := fun h =>
      (Finset.mem_range.mp h).trans (by decide)
    have nats := congrArg UInt64.toNat same
    rwa [UInt64.toNat_ofNat_of_lt' (small ha), UInt64.toNat_ofNat_of_lt' (small hb)] at nats
  have direct : directReply p.handles (floodRequest kMaxPendingIncoming) = none := by
    rw [handles]
    exact directReply_flood _
  have served := (served_iff_of_handler rfl direct).mp (all p reach _ rfl)
  exact absurd full served.ne

end RemotePeer

end Microide.Remote
