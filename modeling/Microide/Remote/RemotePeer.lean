/-
Requests and their answers over one connection.

The peer's own requests wait in a table for their response; the other side's are in flight
until they are replied to. Every function is a program over the peer's mutex; what one thread
does between two of its sections, another may do anything in. A handler that was taken out of
the table is in the hands of the section that took it until it runs.

**Main results.** One lemma for each program: from a free mutex it computes what its name says
and leaves the mutex free (`reply_leaves`, `handleResponse_leaves`, `advance_leaves` ...), but
for `handleRequest`, whose three ways are `handleRequest_exec`.
-/

import Mathlib.Data.Finset.Card
import Microide.Lib.OrderedTable
import Microide.Remote.RemoteFrameTransport
import Microide.Util.JsonValue

namespace Microide.Remote

open Bool Lib Util Locking

/-! ### The link's heartbeat -/

structure LinkHeartbeat where
  intervalMs : Int := 2000
  maxMissed : Nat := 3
  lastSentMs : Option Int := none
  firstSentMs : Int := 0
  outstanding : Nat := 0
  dead : Bool := false
  rttMs : Option Int := none

namespace LinkHeartbeat

/-- Whether a full interval passed since the last ping. -/
def due (h : LinkHeartbeat) (now : Int) : Bool :=
  match h.lastSentMs with
  | some last => h.intervalMs ≤ now - last
  | none => true

/-- The stamp of the ping that is due, or the verdict. -/
def tick (h : LinkHeartbeat) (now : Int) : Option Int × LinkHeartbeat :=
  if h.dead || !h.due now then (none, h)
  else if h.maxMissed ≤ h.outstanding then (none, { h with dead := true })
  else (some now, { h with
    firstSentMs := if h.lastSentMs.isNone then now else h.firstSentMs
    lastSentMs := some now
    outstanding := h.outstanding + 1 })

/-- The answer to the ping stamped `sent`. -/
def onPong (h : LinkHeartbeat) (sent now : Int) : LinkHeartbeat :=
  match h.lastSentMs with
  | none => h
  | some last =>
      if h.dead ∨ sent < h.firstSentMs ∨ last < sent ∨ now < sent then h
      else
        let sample := now - sent
        { h with
          outstanding := 0
          rttMs := some (match h.rttMs with
            | some rtt => rtt + (sample - rtt).tdiv 8
            | none => sample) }

end LinkHeartbeat

/-! ### The peer -/

/-- `IsContentFrameType`. -/
def FrameType.isContent (type : FrameType) : Bool := 16 ≤ type.code

def kMaxPendingIncoming : Nat := 4096

def kErrorProtocol : Int := -32600
def kErrorUnknownMethod : Int := -32601
def kErrorCancelled : Int := -32800

def kLinkPing : List UInt8 := "link/ping".toUTF8.toList
def kOpCancel : List UInt8 := "op/cancel".toUTF8.toList

structure RpcError where
  code : Int
  message : List UInt8

/-- What a response handler is run with. -/
inductive Completion where
  | result (value : JsonValue)
  | error (error : RpcError)

/-- A request that waits for its response; `handler` is the call whose handler it holds. -/
structure PendingRequest where
  handler : Nat
  heartbeat : Bool := false
  sent : Bool := false

/-- How far a thread is in `SendRequest`. -/
inductive CallStage where
  /-- Registered under `id`, not yet sent. -/
  | registered (id : Nat)
  /-- Past the first check of `Send`. -/
  | admitted (id : Nat)
  /-- Past the section that queues. -/
  | queued (id : Nat)
  /-- `Send` answered. -/
  | answered (id : Nat) (sent : Bool)
  | returned (result : Nat)
  deriving DecidableEq

/-- One call of `SendRequest`; a ping has the stamp it was sent with. -/
structure Call where
  method : List UInt8
  params : JsonValue
  lane : Lane
  stamp : Option Int := none
  stage : CallStage

structure RemotePeer where
  /-- The methods with a request handler. -/
  handles : List UInt8 → Bool
  transport : FrameTransport := {}
  nextRequestId : Nat := 1
  pending : OrderedTable Nat PendingRequest := .empty
  incomingInFlight : Finset UInt64 := ∅
  incomingCancelled : Finset UInt64 := ∅
  heartbeat : LinkHeartbeat := {}
  closed : Bool := false
  /-- The calls of `SendRequest`, and where each is. -/
  calls : List Call := []
  /-- The handlers that a section took and has not run yet, section by section. -/
  taken : List (List (Nat × Completion)) := []
  /-- The handlers that ran. -/
  ran : List (Nat × Completion) := []
  /-- The incoming requests whose handler ran. -/
  dispatched : List (UInt64 × List UInt8) := []

namespace RemotePeer

variable [JsonText]

/-- `SendControl`, and the send of `SendContent`. -/
def sendFrame (frame : Frame) : Locking RemotePeer Bool :=
  .act fun p => ((p.transport.send frame).1, { p with transport := (p.transport.send frame).2 })

def controlFrame (type : FrameType) (lane : Lane) (id : UInt64) (body : JsonValue) : Frame :=
  { type, lane, id, payload := JsonText.serializeJson body }

/-! ### Replies -/

/-- A request that is replied to is no longer in flight. -/
def settled (p : RemotePeer) (id : UInt64) : RemotePeer :=
  { p with
    incomingInFlight := p.incomingInFlight.erase id
    incomingCancelled := p.incomingCancelled.erase id }

def replyFrame (id : UInt64) (result : JsonValue) (lane : Lane) : Frame :=
  controlFrame .response lane id (.ofMembers [("result", result)])

def errorFrame (id : UInt64) (code : Int) (message : List UInt8) : Frame :=
  controlFrame .response .interactive id
    (.ofMembers [("error", .ofMembers [("code", .int code), ("message", .string message)])])

def reply (id : UInt64) (result : JsonValue) (lane : Lane) : Locking RemotePeer Bool := do
  Locking.lockGuard (.act fun p => ((), p.settled id))
  sendFrame (replyFrame id result lane)

def replyError (id : UInt64) (code : Int) (message : List UInt8) : Locking RemotePeer Bool := do
  Locking.lockGuard (.act fun p => ((), p.settled id))
  sendFrame (errorFrame id code message)

/-! ### Incoming frames -/

/-- The body of a control frame, where it is an object. -/
def wellFormed (payload : List UInt8) : Option JsonValue :=
  (JsonText.parseJson payload).filter JsonValue.isObject

/-- The method and the parameters of a body that names its method. -/
def methodOf (payload : List UInt8) : Option (List UInt8 × JsonValue) :=
  (wellFormed payload).bind fun body =>
    (body.field "method").string?.map fun name => (name, body.field "params")

/-- The section that puts a request in flight: `true` where it is refused. -/
def enterFlight (id : UInt64) : Locking RemotePeer Bool := do
  let full ← Locking.act fun p => (decide (kMaxPendingIncoming ≤ p.incomingInFlight.card), p)
  if full then
    -- Still inside the section, whose mutex the reply takes again.
    discard (replyError id kErrorProtocol "too many requests in flight".toUTF8.toList)
    return true
  else
    Locking.act fun p => (false, { p with incomingInFlight := insert id p.incomingInFlight })

/-- The Request case of `HandleFrame`. -/
def handleRequest (handles : List UInt8 → Bool) (frame : Frame) : Locking RemotePeer Unit :=
  match methodOf frame.payload with
  | none => discard (replyError frame.id kErrorProtocol "malformed request".toUTF8.toList)
  | some (name, params) =>
      if name = kLinkPing then discard (reply frame.id params .interactive)
      else if !handles name then
        discard (replyError frame.id kErrorUnknownMethod ("unknown method ".toUTF8.toList ++ name))
      else do
        let refused ← Locking.lockGuard (enterFlight frame.id)
        if !refused then
          Locking.act fun p => ((), { p with dispatched := p.dispatched ++ [(frame.id, name)] })

/-- The Notification case: `op/cancel` marks a request in flight; the rest is the handlers'. -/
def handleNotification (frame : Frame) : Locking RemotePeer Unit :=
  match methodOf frame.payload with
  | none => return
  | some (name, params) =>
      let id := (params.field "id").asInt (-1)
      if name = kOpCancel ∧ 0 < id then
        Locking.lockGuard (.act fun p => ((), if UInt64.ofInt id ∈ p.incomingInFlight then
          { p with incomingCancelled := insert (UInt64.ofInt id) p.incomingCancelled } else p))
      else return

/-- What a response's handler is run with. -/
def completionOf (payload : List UInt8) : Completion :=
  match wellFormed payload with
  | none => .error ⟨kErrorProtocol, "malformed response".toUTF8.toList⟩
  | some body =>
      if body.hasKey "error" then
        let error := body.field "error"
        .error ⟨(error.field "code").asInt kErrorProtocol, (error.field "message").asString⟩
      else .result (body.field "result")

/-- The handler of a request that is answered is taken out of the table. -/
def takeResponse (frame : Frame) (p : RemotePeer) : RemotePeer :=
  match p.pending.find frame.id.toNat with
  | none => p
  | some request => { p with
      pending := p.pending.erase frame.id.toNat
      taken := p.taken ++ [[(request.handler, completionOf frame.payload)]] }

def handleFrame (handles : List UInt8 → Bool) (frame : Frame) : Locking RemotePeer Unit :=
  match frame.type with
  | .request => handleRequest handles frame
  | .notification => handleNotification frame
  | .response => Locking.lockGuard (.act fun p => ((), takeResponse frame p))
  | _ => return

/-- Every request that waits is answered: the connection is gone. -/
def takeOrphans (reason : String) (p : RemotePeer) : RemotePeer :=
  let error : RpcError := ⟨kErrorCancelled, ("connection closed: " ++ reason).toUTF8.toList⟩
  { p with
    closed := true
    pending := .empty
    taken := p.taken ++ [p.pending.rows.map fun row => (row.2.handler, .error error)] }

def handleClosed (reason : String) : Locking RemotePeer Unit :=
  Locking.lockGuard (.act fun p => ((), takeOrphans reason p))

/-! ### Requests -/

def requestFrame (call : Call) (id : Nat) : Frame :=
  controlFrame .request call.lane (UInt64.ofNat id)
    (.ofMembers [("method", .string call.method), ("params", call.params)])

/-- The first section of `SendRequest`. -/
def registered (method : List UInt8) (params : JsonValue) (lane : Lane) (stamp : Option Int)
    (p : RemotePeer) : RemotePeer :=
  if p.closed then
    { p with calls := p.calls ++ [{ method, params, lane, stamp, stage := .returned 0 }] }
  else
    { p with
      nextRequestId := p.nextRequestId + 1
      pending := p.pending.set p.nextRequestId
        { handler := p.calls.length, heartbeat := stamp.isSome }
      calls := p.calls ++ [{ method, params, lane, stamp, stage := .registered p.nextRequestId }] }

def register (method : List UInt8) (params : JsonValue) (lane : Lane) (stamp : Option Int) :
    Locking RemotePeer Unit :=
  Locking.lockGuard (.act fun p => ((), registered method params lane stamp p))

def setStage (p : RemotePeer) (i : Nat) (stage : CallStage) : RemotePeer :=
  { p with calls := p.calls.modify i fun call => { call with stage } }

/-- `Send` failed: the request is forgotten, unless the table's entry was taken already. -/
def forgotten (i id : Nat) (p : RemotePeer) : RemotePeer :=
  match p.pending.find id with
  | none => p.setStage i (.returned id)
  | some _ => { p with pending := p.pending.erase id }.setStage i (.returned 0)

/-- `Send` succeeded: the request is marked, unless its answer already took it. -/
def markedSent (i id : Nat) (p : RemotePeer) : RemotePeer :=
  { p with pending := p.pending.modify id fun request => { request with sent := true } }.setStage i
    (.returned id)

/-- The next section of call `i`. -/
def advanced (i : Nat) (p : RemotePeer) : RemotePeer :=
  match p.calls[i]? with
  | none => p
  | some call =>
      match call.stage with
      | .registered id =>
          p.setStage i (if p.transport.admits (requestFrame call id) then .admitted id
            else .answered id false)
      | .admitted id =>
          { p with transport := p.transport.enqueue (requestFrame call id) }.setStage i (.queued id)
      | .queued id => p.setStage i (.answered id (!p.transport.overflowed))
      | .answered id false => forgotten i id p
      | .answered id true => markedSent i id p
      | .returned _ => p

/-- The sections after `Send` are the peer's, those of `Send` the transport's. -/
def advance (i : Nat) : Locking RemotePeer Unit := do
  let locks ← Locking.act fun p =>
    (match (p.calls[i]?).map Call.stage with
      | some (.answered _ _) => true
      | _ => false, p)
  if locks then Locking.lockGuard (.act fun p => ((), advanced i p))
  else .act fun p => ((), advanced i p)

/-- The first handler that section `j` still holds runs. -/
def runFirst (j : Nat) (p : RemotePeer) : RemotePeer :=
  match p.taken[j]? with
  | some (run :: rest) => { p with taken := p.taken.set j rest, ran := p.ran ++ [run] }
  | _ => p

/-- A ping's handler notes its answer. -/
def pongOf (p : RemotePeer) (j : Nat) : Option Int :=
  match p.taken[j]? with
  | some ((handler, .result _) :: _) => (p.calls[handler]?).bind Call.stamp
  | _ => none

def runTaken (j : Nat) (now : Int) : Locking RemotePeer Unit := do
  let pong ← Locking.act fun p => (p.pongOf j, p)
  Locking.act fun p => ((), p.runFirst j)
  match pong with
  | some sent =>
      Locking.lockGuard (.act fun p => ((), { p with heartbeat := p.heartbeat.onPong sent now }))
  | none => return

def cancelFrame (id : Nat) : Frame :=
  controlFrame .notification .interactive 0
    (.ofMembers [("method", .string kOpCancel), ("params", .ofMembers [("id", .int id)])])

/-- `Cancel`. -/
def cancel (id : Nat) : Locking RemotePeer Bool := do
  let waits ← Locking.lockGuard (.act fun p => ((p.pending.find id).isSome, p))
  if waits then sendFrame (cancelFrame id) else return false

def sendContent (type : FrameType) (handle : UInt64) (bytes : List UInt8) (lane : Lane) :
    Locking RemotePeer Bool :=
  if type.isContent then sendFrame { type, lane, id := handle, payload := bytes } else return false

def notify (method : List UInt8) (params : JsonValue) (lane : Lane) (id : UInt64) :
    Locking RemotePeer Bool :=
  sendFrame (controlFrame .notification lane id
    (.ofMembers [("method", .string method), ("params", params)]))

/-- `IsCancelled`. -/
def isCancelled (id : UInt64) : Locking RemotePeer Bool :=
  Locking.lockGuard (.act fun p => (decide (id ∈ p.incomingCancelled), p))

/-- The caller's own requests that were sent and not answered. -/
def pendingRequestCount : Locking RemotePeer Nat :=
  Locking.lockGuard (.act fun p =>
    ((p.pending.rows.filter fun row => row.2.sent && !row.2.heartbeat).length, p))

def rttMs : Locking RemotePeer (Option Int) :=
  Locking.lockGuard (.act fun p => (p.heartbeat.rttMs, p))

/-- `HandleTick`: the ping that is due is requested; a dead link is closed. -/
def handleTick (now : Int) : Locking RemotePeer Unit := do
  let (stamp, dead) ← Locking.lockGuard (.act fun p =>
    let (stamp, heartbeat) := p.heartbeat.tick now
    ((stamp, heartbeat.dead), { p with heartbeat }))
  if dead then
    Locking.act fun p =>
      ((), { p with transport := p.transport.close (.failed "link dead: no answer to three pings") })
  else
    match stamp with
    | none => return
    | some stamp =>
        register kLinkPing (.ofMembers [("clock", .int stamp)]) .interactive (some stamp)

/-! ### Runs -/

/-- A peer that nothing happened to yet. -/
def start (handles : List UInt8 → Bool) (options : TransportOptions) (heartbeat : LinkHeartbeat) :
    RemotePeer :=
  { handles, transport := { options }, heartbeat }

/-- What some thread does next. -/
inductive Action where
  | request (method : List UInt8) (params : JsonValue) (lane : Lane)
  | call (i : Nat)
  | receive (frame : Frame) (target : Option Nat)
  | runTaken (j : Nat) (now : Int)
  | close (reason : CloseReason)
  | closed (reason : String)
  | tick (now : Int)
  | reply (id : UInt64) (result : JsonValue) (lane : Lane)
  | replyError (id : UInt64) (code : Int) (message : List UInt8)
  | notify (method : List UInt8) (params : JsonValue) (lane : Lane) (id : UInt64)
  | sendContent (type : FrameType) (handle : UInt64) (bytes : List UInt8) (lane : Lane)
  | cancel (id : Nat)
  | isCancelled (id : UInt64)
  | pendingRequestCount
  | rttMs
  | pick
  | write (count : Nat)
  | ackRest
  | setFixedBulkWindow (bytes : Nat)

def onTransport (f : FrameTransport → FrameTransport) : Locking RemotePeer Unit :=
  .act fun p => ((), { p with transport := f p.transport })

/-- A frame the decoder gave out: the transport's, then `on_frame`. -/
def receive (handles : List UInt8 → Bool) (frame : Frame) (target : Option Nat) :
    Locking RemotePeer Unit := do
  onTransport fun t => t.dispatch frame target
  if frame.type ≠ .ack then handleFrame handles frame

/-- The program of an action. -/
def program (handles : List UInt8 → Bool) : Action → Locking RemotePeer Unit
  | .request method params lane => register method params lane none
  | .call i => advance i
  | .receive frame target => RemotePeer.receive handles frame target
  | .runTaken j now => RemotePeer.runTaken j now
  | .close reason => onTransport fun t => t.close reason
  | .closed reason => handleClosed reason
  | .tick now => handleTick now
  | .reply id result lane => discard (RemotePeer.reply id result lane)
  | .replyError id code message => discard (RemotePeer.replyError id code message)
  | .notify method params lane id => discard (RemotePeer.notify method params lane id)
  | .sendContent type handle bytes lane =>
      discard (RemotePeer.sendContent type handle bytes lane)
  | .cancel id => discard (RemotePeer.cancel id)
  | .isCancelled id => discard (RemotePeer.isCancelled id)
  | .pendingRequestCount => discard RemotePeer.pendingRequestCount
  | .rttMs => discard RemotePeer.rttMs
  | .pick => onTransport fun t =>
      if t.unwritten = [] then t.pick else t
  | .write count => onTransport fun t =>
      { t with writingOffset := t.writingOffset + min count t.unwritten.length }
  | .ackRest => onTransport FrameTransport.ackRest
  | .setFixedBulkWindow bytes => onTransport fun t => t.setFixedBulkWindow bytes

/-- One action: nothing where its thread waits for itself. -/
def step (p : RemotePeer) (action : Action) : Option RemotePeer :=
  ((program p.handles action).exec p).map Prod.snd

/-! ### What the programs compute -/

def afterSend (frame : Frame) (p : RemotePeer) : RemotePeer :=
  { p with transport := (p.transport.send frame).2 }

omit [JsonText] in
theorem sendFrame_leaves (frame : Frame) :
    Locking.Leaves (discard (sendFrame frame)) fun p => ((), p.afterSend frame) :=
  (leaves_act _).discard

theorem reply_leaves (id : UInt64) (result : JsonValue) (lane : Lane) :
    Locking.Leaves (discard (reply id result lane)) fun p =>
      ((), (p.settled id).afterSend (replyFrame id result lane)) :=
  ((leaves_lockGuard_act _).bind fun _ => leaves_act _).discard

theorem replyError_leaves (id : UInt64) (code : Int) (message : List UInt8) :
    Locking.Leaves (discard (replyError id code message)) fun p =>
      ((), (p.settled id).afterSend (errorFrame id code message)) :=
  ((leaves_lockGuard_act _).bind fun _ => leaves_act _).discard

/-- The three ways of a request: an answer, a handler's run, or, with the set of requests in
flight full, a reply that waits for the section it is made in. -/
inductive RequestWay where
  | answer (reply : Frame)
  | run (name : List UInt8)
  | stuck
  deriving DecidableEq

def requestWay (p : RemotePeer) (frame : Frame) : RequestWay :=
  match methodOf frame.payload with
  | none => .answer (errorFrame frame.id kErrorProtocol "malformed request".toUTF8.toList)
  | some (name, params) =>
      if name = kLinkPing then .answer (replyFrame frame.id params .interactive)
      else if !p.handles name then
        .answer (errorFrame frame.id kErrorUnknownMethod ("unknown method ".toUTF8.toList ++ name))
      else if kMaxPendingIncoming ≤ p.incomingInFlight.card then .stuck
      else .run name

/-- The request's handler runs. -/
def run (p : RemotePeer) (id : UInt64) (name : List UInt8) : RemotePeer :=
  { p with
    incomingInFlight := insert id p.incomingInFlight
    dispatched := p.dispatched ++ [(id, name)] }

/-- A reply inside a section waits for the section to end. -/
theorem replyError_locked (p : RemotePeer) (id : UInt64) (code : Int) (message : List UInt8) :
    replyError id code message ⟨true, p⟩ = none := by
  exact bind_of_none (lockGuard_locked _ p) _

theorem enterFlight_full {p : RemotePeer} (full : kMaxPendingIncoming ≤ p.incomingInFlight.card)
    (id : UInt64) : lockGuard (enterFlight id) ⟨false, p⟩ = none := by
  refine lockGuard_of_none ?_
  unfold enterFlight
  rw [bind_of_some rfl]
  simp only [full]
  exact bind_of_none (discard_of_none (replyError_locked p id _ _)) _

theorem enterFlight_room {p : RemotePeer} (room : ¬kMaxPendingIncoming ≤ p.incomingInFlight.card)
    (id : UInt64) : lockGuard (enterFlight id) ⟨false, p⟩ =
      some (false, ⟨false, { p with incomingInFlight := insert id p.incomingInFlight }⟩) := by
  have enters : enterFlight id ⟨true, p⟩ =
      some (false, ⟨true, { p with incomingInFlight := insert id p.incomingInFlight }⟩) := by
    unfold enterFlight
    rw [bind_of_some rfl]
    simp only [room]
    rfl
  change (enterFlight id ⟨true, p⟩).map _ = _
  rw [enters]
  rfl

theorem handleRequest_exec (p : RemotePeer) (frame : Frame) :
    handleRequest p.handles frame ⟨false, p⟩ = match p.requestWay frame with
      | .answer reply => some ((), ⟨false, (p.settled frame.id).afterSend reply⟩)
      | .run name => some ((), ⟨false, p.run frame.id name⟩)
      | .stuck => none := by
  unfold handleRequest requestWay
  cases methodOf frame.payload with
  | none => exact replyError_leaves _ _ _ p
  | some named =>
    obtain ⟨name, params⟩ := named
    by_cases ping : name = kLinkPing
    · simp only [ping]
      exact reply_leaves _ _ _ p
    by_cases known : p.handles name
    · by_cases full : kMaxPendingIncoming ≤ p.incomingInFlight.card
      · simp only [ping, known, full]
        exact bind_of_none (enterFlight_full full frame.id) _
      · simp only [ping, known, full, if_false, Bool.not_true, false_eq_true]
        rw [bind_of_some (enterFlight_room full frame.id)]
        rfl
    · simp only [ping, known]
      exact replyError_leaves _ _ _ p

/-- A notification marks the request it cancels. -/
def noticed (frame : Frame) (p : RemotePeer) : RemotePeer :=
  match methodOf frame.payload with
  | none => p
  | some (name, params) =>
      let id := (params.field "id").asInt (-1)
      if name = kOpCancel ∧ 0 < id ∧ UInt64.ofInt id ∈ p.incomingInFlight then
        { p with incomingCancelled := insert (UInt64.ofInt id) p.incomingCancelled }
      else p

theorem handleNotification_leaves (frame : Frame) :
    Locking.Leaves (handleNotification frame) fun p => ((), p.noticed frame) := by
  intro p
  unfold handleNotification noticed
  cases methodOf frame.payload with
  | none => rfl
  | some named =>
    obtain ⟨name, params⟩ := named
    dsimp only
    by_cases cancels : name = kOpCancel ∧ 0 < (params.field "id").asInt (-1)
    · rw [if_pos cancels, leaves_lockGuard_act]
      by_cases live : UInt64.ofInt ((params.field "id").asInt (-1)) ∈ p.incomingInFlight
      · rw [if_pos live, if_pos ⟨cancels.1, cancels.2, live⟩]
      · rw [if_neg live, if_neg fun both => live both.2.2]
    · rw [if_neg cancels, if_neg fun all => cancels ⟨all.1, all.2.1⟩]
      rfl

/-- What `HandleFrame` does, where it does not wait for itself. -/
def handled (frame : Frame) (p : RemotePeer) : RemotePeer :=
  match frame.type with
  | .request =>
      match p.requestWay frame with
      | .answer reply => (p.settled frame.id).afterSend reply
      | .run name => p.run frame.id name
      | .stuck => p
  | .notification => p.noticed frame
  | .response => takeResponse frame p
  | _ => p

/-- A request that is to be put in flight where no more may be. -/
def Stuck (p : RemotePeer) (frame : Frame) : Prop :=
  frame.type = .request ∧ p.requestWay frame = .stuck

instance (p : RemotePeer) (frame : Frame) : Decidable (Stuck p frame) := by
  unfold Stuck; infer_instance

theorem handleFrame_exec (p : RemotePeer) (frame : Frame) : handleFrame p.handles frame ⟨false, p⟩ =
      if p.Stuck frame then none else some ((), ⟨false, p.handled frame⟩) := by
  unfold handleFrame handled
  cases type : frame.type with
  | request =>
    dsimp only
    rw [handleRequest_exec]
    cases way : p.requestWay frame <;> simp [Stuck, type, way]
  | notification =>
    rw [if_neg (by simp [Stuck, type])]
    exact handleNotification_leaves frame p
  | response =>
    rw [if_neg (by simp [Stuck, type])]
    rfl
  | _ =>
    rw [if_neg (by simp [Stuck, type])]
    rfl

/-- What a frame does, where its thread does not wait for itself. -/
def received (frame : Frame) (target : Option Nat) (p : RemotePeer) : RemotePeer :=
  let p := { p with transport := p.transport.dispatch frame target }
  if frame.type = .ack then p else p.handled frame

omit [JsonText] in
theorem onTransport_leaves (f : FrameTransport → FrameTransport) :
    Locking.Leaves (onTransport f) fun p => ((), { p with transport := f p.transport }) :=
  leaves_act _

theorem receive_exec (p : RemotePeer) (frame : Frame) (target : Option Nat) :
    receive p.handles frame target ⟨false, p⟩ =
      if p.Stuck frame then none else some ((), ⟨false, p.received frame target⟩) := by
  unfold receive received
  by_cases ack : frame.type = .ack
  · have free : ¬p.Stuck frame := fun stuck => by rw [stuck.1] at ack; cases ack
    simp only [ack, free]
    rfl
  · simp only [ack, ne_eq]
    exact handleFrame_exec { p with transport := p.transport.dispatch frame target } frame

theorem advance_leaves (i : Nat) : Locking.Leaves (advance i) fun p => ((), advanced i p) := by
  refine (leaves_act _).bind (g := fun _ p => ((), advanced i p)) fun locks => ?_
  split
  · exact leaves_lockGuard_act _
  · exact leaves_act _

/-- A taken handler runs; a ping's notes its answer. -/
def afterRun (j : Nat) (now : Int) (p : RemotePeer) : RemotePeer :=
  match p.pongOf j with
  | some sent => { p.runFirst j with heartbeat := (p.runFirst j).heartbeat.onPong sent now }
  | none => p.runFirst j

omit [JsonText] in
theorem runTaken_leaves (j : Nat) (now : Int) :
    Locking.Leaves (runTaken j now) fun p => ((), p.afterRun j now) := by
  intro p
  unfold runTaken afterRun
  rw [bind_of_some rfl, bind_of_some rfl]
  cases pong : p.pongOf j <;> simp only [pong] <;> rfl

/-- A tick of the link's clock. -/
def ticked (now : Int) (p : RemotePeer) : RemotePeer :=
  let (stamp, heartbeat) := p.heartbeat.tick now
  let p := { p with heartbeat }
  if heartbeat.dead then
    { p with transport := p.transport.close (.failed "link dead: no answer to three pings") }
  else
    match stamp with
    | none => p
    | some stamp =>
        registered kLinkPing (.ofMembers [("clock", .int stamp)]) .interactive (some stamp) p

omit [JsonText] in
theorem handleTick_leaves (now : Int) :
    Locking.Leaves (handleTick now) fun p => ((), p.ticked now) := by
  intro p
  unfold handleTick ticked
  rw [bind_of_some (leaves_lockGuard_act _ p)]
  cases ticking : p.heartbeat.tick now with
  | mk stamp heartbeat =>
    cases dead : heartbeat.dead with
    | true =>
      simp only [ticking, dead, if_true]
      rfl
    | false =>
      simp only [ticking, dead, false_eq_true, if_false]
      cases stamp <;> rfl

/-- The request to the other side to stop `id`. -/
def cancelled (id : Nat) (p : RemotePeer) : RemotePeer :=
  if (p.pending.find id).isSome then p.afterSend (cancelFrame id) else p

theorem cancel_leaves (id : Nat) :
    Locking.Leaves (discard (cancel id)) fun p => ((), p.cancelled id) := by
  intro p
  have looked := leaves_lockGuard_act (fun p => ((p.pending.find id).isSome, p)) p
  cases waits : (p.pending.find id).isSome with
  | true =>
    have sends : cancel id ⟨false, p⟩ = sendFrame (cancelFrame id) ⟨false, p⟩ := by
      unfold cancel
      rw [bind_of_some looked]
      simp only [waits, if_true]
    dsimp only
    rw [cancelled, if_pos waits]
    exact discard_of_some (sends.trans (leaves_act _ p))
  | false =>
    have stays : cancel id ⟨false, p⟩ = some (false, ⟨false, p⟩) := by
      unfold cancel
      rw [bind_of_some looked]
      simp only [waits]
      rfl
    dsimp only
    rw [cancelled, if_neg (by rw [waits]; exact Bool.false_ne_true)]
    exact discard_of_some stays

/-- What an action does, where its thread does not wait for itself. -/
def effect (p : RemotePeer) : Action → RemotePeer
  | .request method params lane => registered method params lane none p
  | .call i => advanced i p
  | .receive frame target => p.received frame target
  | .runTaken j now => p.afterRun j now
  | .close reason => { p with transport := p.transport.close reason }
  | .closed reason => takeOrphans reason p
  | .tick now => p.ticked now
  | .reply id result lane => (p.settled id).afterSend (replyFrame id result lane)
  | .replyError id code message => (p.settled id).afterSend (errorFrame id code message)
  | .notify method params lane id => p.afterSend (controlFrame .notification lane id
      (.ofMembers [("method", .string method), ("params", params)]))
  | .sendContent type handle bytes lane =>
      if type.isContent then p.afterSend { type, lane, id := handle, payload := bytes } else p
  | .cancel id => p.cancelled id
  | .isCancelled _ | .pendingRequestCount | .rttMs => p
  | .pick => { p with transport :=
      if p.transport.unwritten = [] then p.transport.pick else p.transport }
  | .write count => { p with transport := { p.transport with
      writingOffset := p.transport.writingOffset + min count p.transport.unwritten.length } }
  | .ackRest => { p with transport := p.transport.ackRest }
  | .setFixedBulkWindow bytes => { p with transport := p.transport.setFixedBulkWindow bytes }

/-- Where an action's thread waits for itself. -/
def SelfLocks (p : RemotePeer) : Action → Prop
  | .receive frame _ => p.Stuck frame
  | _ => False

instance (p : RemotePeer) (action : Action) : Decidable (p.SelfLocks action) := by
  unfold SelfLocks; split <;> infer_instance

omit [JsonText] in
theorem sendContent_leaves (type : FrameType) (handle : UInt64) (bytes : List UInt8) (lane : Lane) :
    Locking.Leaves (discard (sendContent type handle bytes lane)) fun p =>
      ((), if type.isContent then p.afterSend { type, lane, id := handle, payload := bytes }
        else p) := by
  intro p
  unfold sendContent
  cases type.isContent with
  | true => exact sendFrame_leaves _ p
  | false => rfl

/-- **One step.** -/
theorem step_eq (p : RemotePeer) (action : Action) :
    p.step action = if p.SelfLocks action then none else some (p.effect action) := by
  have computes : ∀ {f : RemotePeer → Unit × RemotePeer}, ¬p.SelfLocks action →
      Locking.Leaves (program p.handles action) f → (f p).2 = p.effect action →
      p.step action = if p.SelfLocks action then none else some (p.effect action) := by
    intro f free leaves same
    rw [if_neg free, step, leaves.exec p, Option.map_some, same]
  cases action with
  | request method params lane => exact computes id (leaves_lockGuard_act _) rfl
  | call i => exact computes id (advance_leaves i) rfl
  | receive frame target =>
    rw [step, exec, program, receive_exec]
    have locks : p.SelfLocks (.receive frame target) ↔ p.Stuck frame := Iff.rfl
    by_cases stuck : p.Stuck frame
    · rw [if_pos stuck, if_pos (locks.mpr stuck)]
      rfl
    · rw [if_neg stuck, if_neg fun h => stuck (locks.mp h)]
      rfl
  | runTaken j now => exact computes id (runTaken_leaves j now) rfl
  | close reason => exact computes id (onTransport_leaves fun t => t.close reason) rfl
  | closed reason => exact computes id (leaves_lockGuard_act _) rfl
  | tick now => exact computes id (handleTick_leaves now) rfl
  | reply id' result lane => exact computes id (reply_leaves id' result lane) rfl
  | replyError id' code message => exact computes id (replyError_leaves id' code message) rfl
  | notify method params lane id' => exact computes id (sendFrame_leaves _) rfl
  | sendContent type handle bytes lane =>
    exact computes id (sendContent_leaves type handle bytes lane) rfl
  | cancel id' => exact computes id (cancel_leaves id') rfl
  | isCancelled id' => exact computes id (leaves_lockGuard_act _).discard rfl
  | pendingRequestCount => exact computes id (leaves_lockGuard_act _).discard rfl
  | rttMs => exact computes id (leaves_lockGuard_act _).discard rfl
  | pick =>
    exact computes id (onTransport_leaves fun t => if t.unwritten = [] then t.pick else t) rfl
  | write count =>
    exact computes id (onTransport_leaves fun t =>
      { t with writingOffset := t.writingOffset + min count t.unwritten.length }) rfl
  | ackRest => exact computes id (onTransport_leaves FrameTransport.ackRest) rfl
  | setFixedBulkWindow bytes =>
    exact computes id (onTransport_leaves fun t => t.setFixedBulkWindow bytes) rfl

end RemotePeer

end Microide.Remote
