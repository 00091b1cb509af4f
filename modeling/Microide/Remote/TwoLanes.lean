/-
Two honest ends of a connection.

Each end is a frame transport with its threads' sends, and a pipe carries the bytes of each
direction, written and read in pieces of any size. What an end has been given is a prefix of
what the other began to write.

**Main results.** `inv_step`: one action keeps the account of both directions;
`twoLanes_exact`: over every run, the order and the number of each lane's frames, the place of
an interactive frame, the window, and the acknowledgements.
-/

import Mathlib.Algebra.BigOperators.Group.List.Basic
import Microide.Remote.RemoteFrameTransport

namespace Microide.Remote

open List Lib Function

/-! ### The connection -/

inductive Side where
  | near
  | far
  deriving DecidableEq

def Side.other : Side → Side
  | near => far
  | far => near

@[simp] theorem Side.other_other (side : Side) : side.other.other = side := by cases side <;> rfl

theorem Side.other_ne (side : Side) : side.other ≠ side := by cases side <;> decide

variable {side : Side}

theorem Side.eq_other_of_ne {side' : Side} (ne : side' ≠ side) : side' = side.other := by
  cases side <;> cases side' <;> first | rfl | exact absurd rfl ne

/-- The reasons to close that are not the peer's frames. -/
def CloseReason.Outside : CloseReason → Prop
  | .malformedAck | .ackOutside | .decoder _ => False
  | _ => True

instance (reason : CloseReason) : Decidable reason.Outside := by
  unfold CloseReason.Outside; split <;> infer_instance

structure Link where
  ends : Side → FrameTransport
  /-- The frames of the sends that are past their check and have not queued yet. -/
  sending : Side → List Frame
  /-- The bytes an end wrote that the other has not read. -/
  pipe : Side → List UInt8

namespace Link

def start (options : Side → TransportOptions) : Link :=
  { ends := fun side => { options := options side }, sending := fun _ => [], pipe := fun _ => [] }

inductive Action where
  | takeIn (side : Side) (frame : Frame)
  | enqueue (side : Side) (frame : Frame)
  | pick (side : Side)
  | write (side : Side) (count : Nat)
  | read (side : Side) (count : Nat)
  | readFrame (side : Side) (target : Option Nat)
  | ackRest (side : Side)
  | setFixedBulkWindow (side : Side) (bytes : Nat)
  | close (side : Side) (reason : CloseReason)

def setEnd (link : Link) (side : Side) (t : FrameTransport) : Link :=
  { link with ends := Function.update link.ends side t }

def setSending (link : Link) (side : Side) (frames : List Frame) : Link :=
  { link with sending := Function.update link.sending side frames }

def setPipe (link : Link) (side : Side) (bytes : List UInt8) : Link :=
  { link with pipe := Function.update link.pipe side bytes }

/-- Another send is past its check. -/
def takeIn (link : Link) (side : Side) (frame : Frame) : Link :=
  if (link.ends side).admits frame then link.setSending side (link.sending side ++ [frame])
  else link

/-- A send comes to its section that queues. -/
def enqueue (link : Link) (side : Side) (frame : Frame) : Link :=
  if frame ∈ link.sending side then
    (link.setSending side ((link.sending side).erase frame)).setEnd side
      ((link.ends side).enqueue frame)
  else link

def write (link : Link) (side : Side) (count : Nat) : Link :=
  let t := link.ends side
  let bytes := t.unwritten.take count
  (link.setPipe side (link.pipe side ++ bytes)).setEnd side
    { t with writingOffset := t.writingOffset + bytes.length }

def read (link : Link) (side : Side) (count : Nat) : Link :=
  let bytes := link.pipe side.other
  (link.setPipe side.other (bytes.drop count)).setEnd side
    ((link.ends side).feed (bytes.take count))

/-- One section or one turn of a loop; nothing where it is not its turn. -/
def effect (link : Link) : Action → Link
  | .takeIn side frame => link.takeIn side frame
  | .enqueue side frame => link.enqueue side frame
  | .pick side =>
      if (link.ends side).unwritten = [] then link.setEnd side (link.ends side).pick else link
  | .write side count => link.write side count
  | .read side count => link.read side count
  | .readFrame side target => link.setEnd side ((link.ends side).readFrame target)
  | .ackRest side => link.setEnd side (link.ends side).ackRest
  | .setFixedBulkWindow side bytes =>
      link.setEnd side ((link.ends side).setFixedBulkWindow bytes)
  | .close side reason =>
      if reason.Outside then link.setEnd side ((link.ends side).close reason) else link

def step (link : Link) (action : Action) : Option Link := some (link.effect action)

@[simp] theorem ends_setEnd (link : Link) (side : Side) (t : FrameTransport) :
    (link.setEnd side t).ends side = t := update_self ..

@[simp] theorem ends_setEnd_other (link : Link) (side : Side) (t : FrameTransport) :
    (link.setEnd side t).ends side.other = link.ends side.other :=
  update_of_ne side.other_ne ..

@[simp] theorem ends_setPipe (link : Link) (side : Side) (bytes : List UInt8) :
    (link.setPipe side bytes).ends = link.ends := rfl

@[simp] theorem pipe_setEnd (link : Link) (side : Side) (t : FrameTransport) :
    (link.setEnd side t).pipe = link.pipe := rfl

@[simp] theorem sending_setEnd (link : Link) (side : Side) (t : FrameTransport) :
    (link.setEnd side t).sending = link.sending := rfl

end Link

/-! ### What frames amount to -/

/-- The frames of a lane. -/
def onLane (lane : Lane) (frames : List Frame) : List Frame :=
  frames.filter fun frame => frame.lane = lane

/-- The frames that are not the transport's own. -/
def content (frames : List Frame) : List Frame := frames.filter fun frame => frame.type ≠ .ack

/-- The bulk payload of frames. -/
def bulkBytes (frames : List Frame) : Nat :=
  ((onLane .bulk frames).map fun frame => frame.payload.length).sum

/-- What the acknowledgements among frames say. -/
def acksOf (frames : List Frame) : List Nat :=
  (frames.filter fun frame => frame.type = .ack).map fun frame => getLe frame.payload

def lastAck (frames : List Frame) : Nat := (acksOf frames).getLast?.getD 0

/-- The bytes of frames, one behind the other. -/
def encodeAll (frames : List Frame) : List UInt8 := (frames.map Frame.encode).flatten

section Lists

variable (a b : List Frame) (frame : Frame)

@[simp] theorem onLane_append (lane : Lane) :
    onLane lane (a ++ b) = onLane lane a ++ onLane lane b :=
  filter_append ..

@[simp] theorem content_append : content (a ++ b) = content a ++ content b :=
  filter_append ..

@[simp] theorem bulkBytes_append : bulkBytes (a ++ b) = bulkBytes a + bulkBytes b := by
  simp [bulkBytes]

@[simp] theorem acksOf_append : acksOf (a ++ b) = acksOf a ++ acksOf b := by
  simp [acksOf]

@[simp] theorem encodeAll_append : encodeAll (a ++ b) = encodeAll a ++ encodeAll b := by
  simp [encodeAll]

@[simp] theorem encodeAll_single : encodeAll [frame] = frame.encode := by simp [encodeAll]

variable {frame}

theorem onLane_single_self {lane : Lane} (h : frame.lane = lane) :
    onLane lane [frame] = [frame] := by
  simp [onLane, h]

theorem onLane_single_of_ne {lane : Lane} (h : frame.lane ≠ lane) : onLane lane [frame] = [] := by
  simp [onLane, h]

theorem content_single_of_ne (h : frame.type ≠ .ack) : content [frame] = [frame] := by
  simp [content, h]

theorem content_single_ack (h : frame.type = .ack) : content [frame] = [] := by
  simp [content, h]

theorem acksOf_single_of_ne (h : frame.type ≠ .ack) : acksOf [frame] = [] := by
  simp [acksOf, h]

theorem acksOf_single_ack (h : frame.type = .ack) : acksOf [frame] = [getLe frame.payload] := by
  simp [acksOf, h]

theorem bulkBytes_single_bulk (h : frame.lane = .bulk) :
    bulkBytes [frame] = frame.payload.length := by
  simp [bulkBytes, onLane, h]

theorem bulkBytes_single_interactive (h : frame.lane = .interactive) : bulkBytes [frame] = 0 := by
  simp [bulkBytes, onLane, h]

theorem allFit_append : AllFit (a ++ b) ↔ AllFit a ∧ AllFit b := by
  exact forall_mem_append

theorem lastAck_append_single_ack (h : frame.type = .ack) :
    lastAck (a ++ [frame]) = getLe frame.payload := by
  simp [lastAck, acksOf_single_ack h]

theorem lastAck_append_of_ne (h : frame.type ≠ .ack) : lastAck (a ++ [frame]) = lastAck a := by
  simp [lastAck, acksOf_single_of_ne h]

end Lists

/-! ### One end -/

namespace FrameTransport

/-- The bulk payload sent and not acknowledged. -/
def unacked (t : FrameTransport) : Nat := t.bulkBytesSent - t.bulkBytesAcked

def queue (t : FrameTransport) : Lane → List Frame
  | .interactive => t.interactive
  | .bulk => t.bulk

/-- The account of one end: its queues and what it began to write are, lane by lane, what its
sends queued; its counters are those of the frames; its acknowledgements rise to what it
received. -/
structure Sound (t : FrameTransport) : Prop where
  fits : AllFit (t.started ++ t.interactive ++ t.bulk)
  lanes : ∀ lane, ∀ frame ∈ t.queue lane, frame.lane = lane
  acceptedContent : ∀ frame ∈ t.accepted, frame.type ≠ .ack
  order : ∀ lane, content (onLane lane t.started ++ t.queue lane) = onLane lane t.accepted
  bulkContent : ∀ frame ∈ t.bulk, frame.type ≠ .ack
  sent : t.bulkBytesSent = bulkBytes t.started
  ackShape : ∀ frame ∈ t.started ++ t.interactive, frame.type = .ack →
    frame.lane = .interactive ∧ frame.payload.length = 8
  acksRise : (acksOf (t.started ++ t.interactive)).Pairwise (· ≤ ·)
  acksWithin : ∀ ack ∈ acksOf (t.started ++ t.interactive), ack ≤ t.bulkBytesReceivedAcked
  ackedLast : t.bulkBytesReceivedAcked = lastAck (t.started ++ t.interactive)
  delivers : t.delivered = content t.received
  got : t.bulkBytesReceived = bulkBytes t.received
  ackedWithin : t.bulkBytesReceivedAcked ≤ t.bulkBytesReceived
  acked : t.bulkBytesAcked = lastAck t.received
  closedOutside : ∀ reason ∈ t.closes, reason.Outside

namespace Sound

variable {t : FrameTransport}

theorem start (options : TransportOptions) : Sound { options := options } where
  fits := fun frame mem => absurd mem not_mem_nil
  lanes := fun lane frame mem => by cases lane <;> cases mem
  acceptedContent := fun frame mem => absurd mem not_mem_nil
  order := fun lane => by cases lane <;> rfl
  bulkContent := fun frame mem => absurd mem not_mem_nil
  sent := rfl
  ackShape := fun frame mem => absurd mem not_mem_nil
  acksRise := .nil
  acksWithin := fun ack mem => absurd mem not_mem_nil
  ackedLast := rfl
  delivers := rfl
  got := rfl
  ackedWithin := le_rfl
  acked := rfl
  closedOutside := fun reason mem => absurd mem not_mem_nil

/-- A frame that is queued is the last of its lane. -/
theorem enqueue (h : t.Sound) {frame : Frame} (notAck : frame.type ≠ .ack)
    (fit : frame.payload.length ≤ kMaxFramePayloadBytes) : (t.enqueue frame).Sound := by
  rcases t.enqueue_cases frame with same | ⟨_, same⟩
  · rw [same]
    exact { h with }
  · have acks : acksOf (t.started ++ (t.interactive ++ [frame])) =
        acksOf (t.started ++ t.interactive) := by
      rw [← append_assoc, acksOf_append, acksOf_single_of_ne notAck, append_nil]
    have last : lastAck (t.started ++ (t.interactive ++ [frame])) =
        lastAck (t.started ++ t.interactive) := congrArg (fun acks => acks.getLast?.getD 0) acks
    have accepted : ∀ other ∈ t.accepted ++ [frame], other.type ≠ .ack := by
      intro other mem
      rcases mem_append.mp mem with mem | mem
      · exact h.acceptedContent other mem
      · exact mem_singleton.mp mem ▸ notAck
    obtain ⟨fitsBefore, fitsBulk⟩ := (allFit_append _ _).mp h.fits
    obtain ⟨fitsStarted, fitsInteractive⟩ := (allFit_append _ _).mp fitsBefore
    have fitsFrame : AllFit [frame] := fun other mem => mem_singleton.mp mem ▸ fit
    rw [same]
    cases lane : frame.lane with
    | interactive =>
      simp only [if_true]
      exact { h with
        fits := (allFit_append _ _).mpr ⟨(allFit_append _ _).mpr
          ⟨fitsStarted, (allFit_append _ _).mpr ⟨fitsInteractive, fitsFrame⟩⟩, fitsBulk⟩
        lanes := fun lane' other mem => by
          cases lane' with
          | interactive =>
            rcases mem_append.mp mem with mem | mem
            · exact h.lanes .interactive other mem
            · exact mem_singleton.mp mem ▸ lane
          | bulk => exact h.lanes .bulk other mem
        acceptedContent := accepted
        order := fun lane' => by
          have was := h.order lane'
          cases lane' with
          | interactive =>
            simp only [queue, content_append, onLane_append, onLane_single_self lane,
              content_single_of_ne notAck] at was ⊢
            rw [← append_assoc, was]
          | bulk =>
            have apart : frame.lane ≠ .bulk := by rw [lane]; decide
            simp only [onLane_append, onLane_single_of_ne apart, append_nil] at was ⊢
            exact was
        ackShape := fun other mem ack => by
          rw [← append_assoc] at mem
          rcases mem_append.mp mem with mem | mem
          · exact h.ackShape other mem ack
          · exact absurd ack (mem_singleton.mp mem ▸ notAck)
        acksRise := by rw [acks]; exact h.acksRise
        acksWithin := by rw [acks]; exact h.acksWithin
        ackedLast := h.ackedLast.trans last.symm }
    | bulk =>
      simp only [if_true]
      exact { h with
        fits := (allFit_append _ _).mpr ⟨fitsBefore, (allFit_append _ _).mpr ⟨fitsBulk, fitsFrame⟩⟩
        lanes := fun lane' other mem => by
          cases lane' with
          | interactive => exact h.lanes .interactive other mem
          | bulk =>
            rcases mem_append.mp mem with mem | mem
            · exact h.lanes .bulk other mem
            · exact mem_singleton.mp mem ▸ lane
        acceptedContent := accepted
        order := fun lane' => by
          have was := h.order lane'
          cases lane' with
          | interactive =>
            have apart : frame.lane ≠ .interactive := by rw [lane]; decide
            simp only [onLane_append, onLane_single_of_ne apart, append_nil] at was ⊢
            exact was
          | bulk =>
            simp only [queue, content_append, onLane_append, onLane_single_self lane,
              content_single_of_ne notAck] at was ⊢
            rw [← append_assoc, was]
        bulkContent := fun other mem => by
          rcases mem_append.mp mem with mem | mem
          · exact h.bulkContent other mem
          · exact mem_singleton.mp mem ▸ notAck }

/-- An acknowledgement says what was received so far. -/
theorem queueAck (h : t.Sound) (small : t.bulkBytesReceived < 2 ^ 64) : t.queueAck.Sound := by
  obtain ⟨ack, atAck⟩ : ∃ ack : Frame, ack =
    ⟨.ack, .interactive, 0, putLe t.bulkBytesReceived 8⟩ := ⟨_, rfl⟩
  have same : t.queueAck = { t with
      bulkBytesReceivedAcked := t.bulkBytesReceived
      queuedBytes := t.queuedBytes + ack.encode.length
      interactive := t.interactive ++ [ack] } := by rw [atAck]; rfl
  have type : ack.type = .ack := by rw [atAck]
  have value : getLe ack.payload = t.bulkBytesReceived := by
    rw [atAck]
    exact getLe_putLe (small.trans_eq (by decide))
  have size : ack.payload.length = 8 := by rw [atAck]; exact length_putLe _ _
  have acks : acksOf (t.started ++ (t.interactive ++ [ack])) =
      acksOf (t.started ++ t.interactive) ++ [t.bulkBytesReceived] := by
    rw [← append_assoc, acksOf_append, acksOf_single_ack type, value]
  obtain ⟨fitsBefore, fitsBulk⟩ := (allFit_append _ _).mp h.fits
  obtain ⟨fitsStarted, fitsInteractive⟩ := (allFit_append _ _).mp fitsBefore
  have below : ∀ earlier ∈ acksOf (t.started ++ t.interactive), earlier ≤ t.bulkBytesReceived :=
    fun earlier mem => (h.acksWithin earlier mem).trans h.ackedWithin
  rw [same]
  exact { h with
    fits := (allFit_append _ _).mpr ⟨(allFit_append _ _).mpr
      ⟨fitsStarted, (allFit_append _ _).mpr ⟨fitsInteractive, fun other mem => by
        rw [mem_singleton.mp mem, size]
        decide⟩⟩, fitsBulk⟩
    lanes := fun lane other mem => by
      cases lane with
      | interactive =>
        rcases mem_append.mp mem with mem | mem
        · exact h.lanes .interactive other mem
        · rw [mem_singleton.mp mem, atAck]
      | bulk => exact h.lanes .bulk other mem
    order := fun lane => by
      have was := h.order lane
      cases lane with
      | interactive =>
        simp only [queue, content_append, content_single_ack type, append_nil] at was ⊢
        exact was
      | bulk => exact was
    ackShape := fun other mem isAck => by
      rw [← append_assoc] at mem
      rcases mem_append.mp mem with mem | mem
      · exact h.ackShape other mem isAck
      · rw [mem_singleton.mp mem]
        exact ⟨by rw [atAck], size⟩
    acksRise := by
      rw [acks, pairwise_append]
      refine ⟨h.acksRise, pairwise_singleton _ _, fun earlier mem last mem' => ?_⟩
      rw [mem_singleton.mp mem']
      exact below earlier mem
    acksWithin := by
      rw [acks]
      intro earlier mem
      rcases mem_append.mp mem with mem | mem
      · exact below earlier mem
      · exact (mem_singleton.mp mem).le
    ackedLast := by rw [lastAck, acks, getLast?_concat]; rfl
    ackedWithin := le_rfl }

/-- The frame that is begun leaves its queue. -/
theorem pick (h : t.Sound) : t.pick.Sound := by
  rcases t.pick_cases with ⟨frame, rest, queued, same⟩ | ⟨idle, frame, rest, queued, _, same⟩ |
    ⟨_, _, same⟩
  · have lane : frame.lane = .interactive := h.lanes .interactive frame (by
      rw [queue, queued]
      exact mem_cons_self)
    have moved : t.started ++ [frame] ++ rest = t.started ++ t.interactive := by
      rw [queued, append_assoc, singleton_append]
    rw [same]
    exact { h with
      fits := by rw [moved]; exact h.fits
      lanes := fun lane other mem => by
        cases lane with
        | interactive =>
          refine h.lanes .interactive other ?_
          rw [queue, queued]
          exact mem_cons_of_mem _ mem
        | bulk => exact h.lanes .bulk other mem
      order := fun lane' => by
        have was := h.order lane'
        cases lane' with
        | interactive =>
          rw [← was, queue, queue, queued, onLane_append, onLane_single_self lane,
            append_assoc, singleton_append]
        | bulk =>
          have apart : frame.lane ≠ .bulk := by rw [lane]; decide
          rw [← was, onLane_append, onLane_single_of_ne apart, append_nil]
          rfl
      sent := by
        rw [bulkBytes_append, bulkBytes_single_interactive lane, Nat.add_zero]
        exact h.sent
      ackShape := by rw [moved]; exact h.ackShape
      acksRise := by rw [moved]; exact h.acksRise
      acksWithin := by rw [moved]; exact h.acksWithin
      ackedLast := by rw [moved]; exact h.ackedLast }
  · have mem : frame ∈ t.bulk := by rw [queued]; exact mem_cons_self
    have lane : frame.lane = .bulk := h.lanes .bulk frame mem
    have notAck := h.bulkContent frame mem
    have acks : acksOf (t.started ++ [frame] ++ t.interactive) =
        acksOf (t.started ++ t.interactive) := by
      simp only [acksOf_append, acksOf_single_of_ne notAck, append_nil]
    have last : lastAck (t.started ++ [frame] ++ t.interactive) =
        lastAck (t.started ++ t.interactive) := congrArg (fun acks => acks.getLast?.getD 0) acks
    rw [same]
    exact { h with
      fits := by
        intro other mem
        refine h.fits other ?_
        rw [queued]
        simp only [idle, append_assoc] at mem ⊢
        exact mem
      lanes := fun lane other mem => by
        cases lane with
        | interactive => exact h.lanes .interactive other mem
        | bulk =>
          refine h.lanes .bulk other ?_
          rw [queue, queued]
          exact mem_cons_of_mem _ mem
      order := fun lane' => by
        have was := h.order lane'
        cases lane' with
        | interactive =>
          have apart : frame.lane ≠ .interactive := by rw [lane]; decide
          rw [← was, onLane_append, onLane_single_of_ne apart, append_nil]
          rfl
        | bulk =>
          rw [← was, queue, queue, queued, onLane_append, onLane_single_self lane,
            append_assoc, singleton_append]
      bulkContent := fun other mem => h.bulkContent other (by
        rw [queued]
        exact mem_cons_of_mem _ mem)
      sent := by
        rw [bulkBytes_append, bulkBytes_single_bulk lane, ← h.sent]
      ackShape := fun other mem isAck => by
        refine h.ackShape other ?_ isAck
        simp only [mem_append, mem_singleton] at mem ⊢
        rcases mem with (mem | rfl) | mem
        · exact .inl mem
        · exact absurd isAck notAck
        · exact .inr mem
      acksRise := by rw [acks]; exact h.acksRise
      acksWithin := by rw [acks]; exact h.acksWithin
      ackedLast := h.ackedLast.trans last.symm }
  · rw [same]
    exact { h with }

theorem ackRest (h : t.Sound) (small : t.bulkBytesReceived < 2 ^ 64) : t.ackRest.Sound := by
  unfold FrameTransport.ackRest
  split
  · exact h.queueAck small
  · exact h

theorem setFixedBulkWindow (h : t.Sound) (bytes : Nat) : (t.setFixedBulkWindow bytes).Sound := by
  unfold FrameTransport.setFixedBulkWindow
  split <;> exact { h with }

theorem close (h : t.Sound) {reason : CloseReason} (outside : reason.Outside) :
    (t.close reason).Sound :=
  { h with
    closedOutside := fun other mem => by
      rcases mem_append.mp mem with mem | mem
      · exact h.closedOutside other mem
      · exact mem_singleton.mp mem ▸ outside }

/-- A frame that the decoder gives out is counted; an acknowledgement within what was sent and
acknowledged is taken. -/
theorem dispatch (h : t.Sound) {decoder : FrameDecoder} {frame : Frame} (target : Option Nat)
    (ack : frame.type = .ack → frame.lane = .interactive ∧ frame.payload.length = 8 ∧
      t.bulkBytesAcked ≤ getLe frame.payload ∧ getLe frame.payload ≤ t.bulkBytesSent)
    (small : bulkBytes (t.received ++ [frame]) < 2 ^ 64) :
    ({ t with decoder, received := t.received ++ [frame] }.dispatch frame target).Sound := by
  unfold FrameTransport.dispatch
  by_cases isAck : frame.type = .ack
  · obtain ⟨lane, size, rises, within⟩ := ack isAck
    have counted : lastAck (t.received ++ [frame]) = getLe frame.payload :=
      lastAck_append_single_ack _ isAck
    have delivers : t.delivered = content (t.received ++ [frame]) := by
      rw [content_append, content_single_ack isAck, append_nil]
      exact h.delivers
    have got : t.bulkBytesReceived = bulkBytes (t.received ++ [frame]) := by
      rw [bulkBytes_append, bulkBytes_single_interactive lane, Nat.add_zero]
      exact h.got
    rw [if_pos isAck, if_neg (by rw [lane, size]; simp)]
    unfold handleAck
    dsimp only
    rw [if_neg (by omega)]
    split
    · split
      · exact { h with delivers := delivers, got := got, acked := counted.symm }
      · exact { h with delivers := delivers, got := got, acked := counted.symm }
    · exact { h with delivers := delivers, got := got, acked := counted.symm }
  · have acked : t.bulkBytesAcked = lastAck (t.received ++ [frame]) :=
      h.acked.trans (lastAck_append_of_ne _ isAck).symm
    have delivers : t.delivered ++ [frame] = content (t.received ++ [frame]) := by
      rw [content_append, content_single_of_ne isAck, ← h.delivers]
    rw [if_neg isAck]
    cases lane : frame.lane with
    | interactive =>
      have got : t.bulkBytesReceived = bulkBytes (t.received ++ [frame]) := by
        rw [bulkBytes_append, bulkBytes_single_interactive lane, Nat.add_zero]
        exact h.got
      exact { h with delivers := delivers, got := got, acked := acked }
    | bulk =>
      have got : t.bulkBytesReceived + frame.payload.length = bulkBytes (t.received ++ [frame]) := by
        rw [bulkBytes_append, bulkBytes_single_bulk lane, ← h.got]
      have counted : Sound { t with
          decoder
          received := t.received ++ [frame]
          delivered := t.delivered ++ [frame]
          bulkBytesReceived := t.bulkBytesReceived + frame.payload.length } :=
        { h with
          delivers := delivers
          got := got
          ackedWithin := h.ackedWithin.trans (Nat.le_add_right _ _)
          acked := acked }
      dsimp only
      split
      · exact counted.queueAck (got ▸ small)
      · exact counted

end Sound

/-- What a dispatched frame leaves alone. -/
theorem dispatch_same (t : FrameTransport) (frame : Frame) (target : Option Nat) :
    (t.dispatch frame target).started = t.started ∧
      (t.dispatch frame target).unwritten = t.unwritten ∧
      (t.dispatch frame target).decoder = t.decoder ∧
      (t.dispatch frame target).received = t.received := by
  unfold dispatch
  split
  · split
    · exact ⟨rfl, rfl, rfl, rfl⟩
    · unfold handleAck
      dsimp only
      split
      · exact ⟨rfl, rfl, rfl, rfl⟩
      · split
        · split <;> exact ⟨rfl, rfl, rfl, rfl⟩
        · exact ⟨rfl, rfl, rfl, rfl⟩
  · dsimp only
    split
    · split <;> exact ⟨rfl, rfl, rfl, rfl⟩
    · exact ⟨rfl, rfl, rfl, rfl⟩

end FrameTransport

/-! ### One direction -/

/-- What the receiver was fed and the pipe holds is what the sender wrote; what the receiver's
decoder gave out and holds is what it was fed. -/
def Wire (sender : FrameTransport) (pipe : List UInt8) (receiver : FrameTransport) : Prop :=
  ∃ soFar, RunScan soFar (receiver.decoder, receiver.received) ∧
    encodeAll sender.started = soFar ++ pipe ++ sender.unwritten

namespace Wire

variable {sender receiver : FrameTransport} {pipe : List UInt8}

section

variable (wire : Wire sender pipe receiver)

include wire

/-- What was received is what was begun first, and the decoder has not failed. -/
theorem received_first (fit : AllFit sender.started) :
    receiver.received <+: sender.started ∧ receiver.decoder.error = none := by
  obtain ⟨soFar, run, stream⟩ := wire
  have scanned : scan (encodeAll sender.started) = (sender.started, none) := scan_frames fit
  rw [stream, append_assoc] at scanned
  obtain ⟨_, left⟩ := run
  cases failed : receiver.decoder.error with
  | some error =>
    simp only [failed] at left
    obtain ⟨rest, consumes, stuck⟩ := left
    rw [(consumes.append _).scan_eq, scan_of_error (firstFrame_append_of_error stuck _)] at scanned
    exact absurd (congrArg Prod.snd scanned) (by simp)
  | none =>
    simp only [failed] at left
    rw [(left.append _).scan_eq] at scanned
    exact ⟨⟨_, congrArg Prod.fst scanned⟩, rfl⟩

/-- The sender begins another frame. -/
theorem pick (done : sender.unwritten = []) : Wire sender.pick pipe receiver := by
  obtain ⟨soFar, run, stream⟩ := wire
  rw [done, append_nil] at stream
  refine ⟨soFar, run, ?_⟩
  rcases sender.pick_cases with ⟨frame, rest, _, same⟩ | ⟨_, frame, rest, _, _, same⟩ | ⟨_, _, same⟩
  · rw [same, encodeAll_append, encodeAll_single, stream]
    rfl
  · rw [same, encodeAll_append, encodeAll_single, stream]
    rfl
  · rw [same, stream]
    exact (append_nil _).symm

/-- A piece of the frame is written. -/
theorem write (count : Nat) : Wire { sender with
        writingOffset := sender.writingOffset + (sender.unwritten.take count).length }
      (pipe ++ sender.unwritten.take count) receiver := by
  obtain ⟨soFar, run, stream⟩ := wire
  refine ⟨soFar, run, ?_⟩
  have left : FrameTransport.unwritten { sender with
      writingOffset := sender.writingOffset + (sender.unwritten.take count).length } =
        sender.unwritten.drop count := by
    unfold FrameTransport.unwritten
    rw [← drop_drop, length_take]
    rcases Nat.le_total count (sender.writing.drop sender.writingOffset).length with short | long
    · rw [Nat.min_eq_left short]
    · rw [Nat.min_eq_right long, drop_length, drop_of_length_le long]
  rw [left]
  refine stream.trans ?_
  rw [← append_assoc, append_assoc _ _ (sender.unwritten.drop count), take_append_drop]

/-- A piece of the pipe is read. -/
theorem read (count : Nat) : Wire sender (pipe.drop count) (receiver.feed (pipe.take count)) := by
  obtain ⟨soFar, run, stream⟩ := wire
  refine ⟨soFar ++ pipe.take count, ?_, ?_⟩
  · have fedRun := run.step (.feed (pipe.take count))
    have bytes : fed [.feed (pipe.take count)] = pipe.take count := by simp [fed]
    rw [bytes] at fedRun
    exact fedRun
  · rw [stream, append_assoc soFar (pipe.take count), take_append_drop]

/-- One turn of the loop over the decoder's frames. -/
theorem next : Wire sender pipe { receiver with
      decoder := receiver.decoder.next.2
      received := receiver.received ++ receiver.decoder.next.1.toList } := by
  obtain ⟨soFar, run, stream⟩ := wire
  have turn := run.step .next
  have bytes : soFar ++ fed [.next] = soFar := by simp [fed]
  rw [bytes] at turn
  exact ⟨soFar, turn, stream⟩

end

end Wire

/-! ### Both directions -/

theorem bulkBytes_mono {a b : List Frame} (first : a <+: b) : bulkBytes a ≤ bulkBytes b := by
  obtain ⟨rest, rfl⟩ := first
  rw [bulkBytes_append]
  exact Nat.le_add_right _ _

namespace Link

/-- The account of the connection. -/
structure Inv (link : Link) : Prop where
  sound : ∀ side, (link.ends side).Sound
  wire : ∀ side, Wire (link.ends side) (link.pipe side) (link.ends side.other)
  sending : ∀ side, ∀ frame ∈ link.sending side,
    frame.type ≠ .ack ∧ frame.payload.length ≤ kMaxFramePayloadBytes

/-- What the counters hold. -/
def Short (link : Link) : Prop := ∀ side, (link.ends side).bulkBytesSent < 2 ^ 64

namespace Inv

variable {link : Link}

theorem start (options : Side → TransportOptions) : (Link.start options).Inv where
  sound := fun side => .start (options side)
  wire := fun _ => ⟨[], ⟨Nat.le_refl 0, .done _⟩, rfl⟩
  sending := fun _ _ mem => absurd mem not_mem_nil

section

variable (inv : link.Inv)

include inv

theorem first (side : Side) : (link.ends side.other).received <+: (link.ends side).started ∧
      (link.ends side.other).decoder.error = none := by
  have fit := ((allFit_append _ _).mp ((allFit_append _ _).mp (inv.sound side).fits).1).1
  exact (inv.wire side).received_first fit

/-- No more was received than the other end sent. -/
theorem received_le (side : Side) :
    (link.ends side.other).bulkBytesReceived ≤ (link.ends side).bulkBytesSent := by
  rw [(inv.sound side.other).got, (inv.sound side).sent]
  exact bulkBytes_mono (inv.first side).1

theorem received_small (short : link.Short) (side : Side) :
    (link.ends side).bulkBytesReceived < 2 ^ 64 := by
  have received := inv.received_le side.other
  rw [Side.other_other] at received
  exact received.trans_lt (short side.other)

/-- One end changes, and with it its ends of the two pipes. -/
theorem update {link' : Link} {t : FrameTransport}
    (ends : link'.ends = update link.ends side t) (same : link'.sending = link.sending)
    (sound : t.Sound) (out : Wire t (link'.pipe side) (link.ends side.other))
    (into : Wire (link.ends side.other) (link'.pipe side.other) t) : link'.Inv := by
  have here : link'.ends side = t := by rw [ends, update_self]
  have there : link'.ends side.other = link.ends side.other := by
    rw [ends, update_of_ne side.other_ne]
  refine ⟨fun side' => ?_, fun side' => ?_, by rw [same]; exact inv.sending⟩
  · by_cases same : side' = side
    · rw [same, here]
      exact sound
    · rw [Side.eq_other_of_ne same, there]
      exact inv.sound side.other
  · by_cases same : side' = side
    · rw [same, here, there]
      exact out
    · rw [Side.eq_other_of_ne same, Side.other_other, here, there]
      exact into

/-- A section that neither writes nor decodes. -/
theorem setEnd_same {t : FrameTransport} (sound : t.Sound)
    (started : t.started = (link.ends side).started)
    (unwritten : t.unwritten = (link.ends side).unwritten)
    (decoder : t.decoder = (link.ends side).decoder)
    (received : t.received = (link.ends side).received) : (link.setEnd side t).Inv := by
  refine inv.update rfl rfl sound ?_ ?_
  · obtain ⟨soFar, run, stream⟩ := inv.wire side
    exact ⟨soFar, run, by rw [started, unwritten]; exact stream⟩
  · obtain ⟨soFar, run, stream⟩ := inv.wire side.other
    rw [Side.other_other] at run
    exact ⟨soFar, by rw [decoder, received]; exact run, stream⟩

theorem takeIn (side : Side) (frame : Frame) : (link.takeIn side frame).Inv := by
  unfold Link.takeIn
  split
  next admitted =>
    refine ⟨inv.sound, inv.wire, fun side' other mem => ?_⟩
    by_cases same : side' = side
    · cases same
      simp only [setSending, update_self] at mem
      rcases mem_append.mp mem with mem | mem
      · exact inv.sending side other mem
      · rw [mem_singleton.mp mem]
        simp only [FrameTransport.admits, Bool.and_eq_true, decide_eq_true_eq] at admitted
        exact ⟨admitted.1.1, admitted.2⟩
    · simp only [setSending, update_of_ne same] at mem
      exact inv.sending side' other mem
  · exact inv

theorem enqueue (side : Side) (frame : Frame) : (link.enqueue side frame).Inv := by
  unfold Link.enqueue
  split
  next waits =>
    obtain ⟨notAck, fit⟩ := inv.sending side frame waits
    have fewer : (link.setSending side ((link.sending side).erase frame)).Inv := by
      refine ⟨inv.sound, inv.wire, fun side' other mem => ?_⟩
      by_cases same : side' = side
      · cases same
        simp only [setSending, update_self] at mem
        exact inv.sending side other (mem_of_mem_erase mem)
      · simp only [setSending, update_of_ne same] at mem
        exact inv.sending side' other mem
    have sound := (inv.sound side).enqueue notAck fit
    rcases (link.ends side).enqueue_cases frame with same | ⟨_, same⟩
    · rw [same] at sound ⊢
      exact fewer.setEnd_same sound rfl rfl rfl rfl
    · rw [same] at sound ⊢
      exact fewer.setEnd_same sound rfl rfl rfl rfl
  · exact inv

/-- The pipe into an end, as the end sees it. -/
theorem wire_into (side : Side) :
    Wire (link.ends side.other) (link.pipe side.other) (link.ends side) := by
  have into := inv.wire side.other
  rwa [Side.other_other] at into

theorem pick (done : (link.ends side).unwritten = []) :
    (link.setEnd side (link.ends side).pick).Inv := by
  refine inv.update rfl rfl (inv.sound side).pick ((inv.wire side).pick done) ?_
  obtain ⟨soFar, run, stream⟩ := inv.wire_into side
  refine ⟨soFar, ?_, stream⟩
  rcases (link.ends side).pick_cases with ⟨_, _, _, same⟩ | ⟨_, _, _, _, _, same⟩ | ⟨_, _, same⟩
  all_goals rw [same]; exact run

theorem write (side : Side) (count : Nat) : (link.write side count).Inv := by
  refine inv.update (t := { link.ends side with
    writingOffset := (link.ends side).writingOffset + ((link.ends side).unwritten.take count).length })
    rfl rfl { inv.sound side with } ?_ ?_
  · have written := (inv.wire side).write count
    simpa only [Link.write, pipe_setEnd, setPipe, update_self] using written
  · obtain ⟨soFar, run, stream⟩ := inv.wire_into side
    have same : (link.write side count).pipe side.other = link.pipe side.other :=
      update_of_ne side.other_ne ..
    rw [same]
    exact ⟨soFar, run, stream⟩

theorem read (side : Side) (count : Nat) : (link.read side count).Inv := by
  refine inv.update (t := (link.ends side).feed ((link.pipe side.other).take count)) rfl rfl
    { inv.sound side with } ?_ ?_
  · obtain ⟨soFar, run, stream⟩ := inv.wire side
    have same : (link.read side count).pipe side = link.pipe side :=
      update_of_ne side.other_ne.symm ..
    rw [same]
    exact ⟨soFar, run, stream⟩
  · have fed := (inv.wire_into side).read count
    simpa only [Link.read, pipe_setEnd, setPipe, update_self] using fed

/-- An acknowledgement that arrives is not below the last nor above what was sent. -/
theorem ack_within (side : Side) {frame : Frame} (isAck : frame.type = .ack)
    (first : (link.ends side).received ++ [frame] <+: (link.ends side.other).started) :
    frame.lane = .interactive ∧ frame.payload.length = 8 ∧
      (link.ends side).bulkBytesAcked ≤ getLe frame.payload ∧
      getLe frame.payload ≤ (link.ends side).bulkBytesSent := by
  have sound := inv.sound side.other
  obtain ⟨rest, atRest⟩ := first
  have begun : frame ∈ (link.ends side.other).started := by
    rw [← atRest]
    simp
  obtain ⟨lane, size⟩ := sound.ackShape frame (mem_append_left _ begun) isAck
  have acks : acksOf ((link.ends side.other).started ++ (link.ends side.other).interactive) =
      acksOf (link.ends side).received ++ getLe frame.payload ::
        acksOf (rest ++ (link.ends side.other).interactive) := by
    rw [← atRest]
    simp only [acksOf_append, append_assoc]
    rw [acksOf_single_ack isAck]
    rfl
  have rises := sound.acksRise
  rw [acks, pairwise_append] at rises
  have within := sound.acksWithin (getLe frame.payload) (by
    rw [acks]
    exact mem_append_right _ mem_cons_self)
  have received := inv.received_le side
  refine ⟨lane, size, ?_, within.trans (sound.ackedWithin.trans received)⟩
  rw [(inv.sound side).acked, lastAck]
  cases last : (acksOf (link.ends side).received).getLast? with
  | none => exact Nat.zero_le _
  | some ack =>
    exact rises.2.2 ack (mem_of_getLast? last) (getLe frame.payload) mem_cons_self

theorem readFrame (short : link.Short) (side : Side) (target : Option Nat) :
    (link.setEnd side ((link.ends side).readFrame target)).Inv := by
  have sound := inv.sound side
  have fit := ((allFit_append _ _).mp ((allFit_append _ _).mp (inv.sound side.other).fits).1).1
  have next := (inv.wire_into side).next
  obtain ⟨first, working⟩ := next.received_first fit
  unfold FrameTransport.readFrame
  cases turn : (link.ends side).decoder.next with
  | mk out decoder =>
    rw [turn] at next first working
    cases out with
    | none =>
      have calm : decoder.error = none := working
      simp only [calm]
      have into : Wire (link.ends side.other) (link.pipe side.other)
          { link.ends side with decoder := decoder } := by
        obtain ⟨soFar, run, stream⟩ := next
        rw [Option.toList_none, append_nil] at run
        exact ⟨soFar, run, stream⟩
      exact inv.update rfl rfl { sound with } (inv.wire side) into
    | some frame =>
      obtain ⟨started, unwritten, decoded, received⟩ := FrameTransport.dispatch_same
        { link.ends side with decoder, received := (link.ends side).received ++ [frame] } frame target
      have small : bulkBytes ((link.ends side).received ++ [frame]) < 2 ^ 64 := by
        refine (bulkBytes_mono first).trans_lt ?_
        rw [← (inv.sound side.other).sent]
        exact short side.other
      refine inv.update rfl rfl
        (sound.dispatch target (fun isAck => inv.ack_within side isAck first) small) ?_ ?_
      · obtain ⟨soFar, run, stream⟩ := inv.wire side
        exact ⟨soFar, run, by rw [started, unwritten]; exact stream⟩
      · obtain ⟨soFar, run, stream⟩ := next
        exact ⟨soFar, by rw [decoded, received]; exact run, stream⟩

/-- **Every action keeps the account.** -/
theorem effect (short : link.Short) (action : Action) : (link.effect action).Inv := by
  cases action with
  | takeIn side frame => exact inv.takeIn side frame
  | enqueue side frame => exact inv.enqueue side frame
  | pick side =>
    unfold Link.effect
    dsimp only
    split
    next done => exact inv.pick done
    · exact inv
  | write side count => exact inv.write side count
  | read side count => exact inv.read side count
  | readFrame side target => exact inv.readFrame short side target
  | ackRest side =>
    have sound := (inv.sound side).ackRest (inv.received_small short side)
    unfold Link.effect
    dsimp only
    unfold FrameTransport.ackRest at sound ⊢
    split at sound
    next more =>
      rw [if_pos more]
      exact inv.setEnd_same sound rfl rfl rfl rfl
    next done =>
      rw [if_neg done]
      exact inv.setEnd_same sound rfl rfl rfl rfl
  | setFixedBulkWindow side bytes =>
    have sound := (inv.sound side).setFixedBulkWindow bytes
    unfold Link.effect
    dsimp only
    unfold FrameTransport.setFixedBulkWindow at sound ⊢
    split at sound
    next fixed =>
      rw [if_pos fixed]
      exact inv.setEnd_same sound rfl rfl rfl rfl
    next free =>
      rw [if_neg free]
      exact inv.setEnd_same sound rfl rfl rfl rfl
  | close side reason =>
    unfold Link.effect
    dsimp only
    split
    next outside => exact inv.setEnd_same ((inv.sound side).close outside) rfl rfl rfl rfl
    · exact inv

end

end Inv

/-! ### What an action does to an end -/

/-- Nothing is begun; what waits on the interactive lane waits where it did. -/
structure Waits (t t' : FrameTransport) : Prop where
  started : t'.started = t.started
  sent : t'.bulkBytesSent = t.bulkBytesSent
  acked : t.bulkBytesAcked ≤ t'.bulkBytesAcked
  interactive : t.interactive <+: t'.interactive

namespace Waits

variable {t t' t'' : FrameTransport}

theorem refl (t : FrameTransport) : Waits t t := ⟨rfl, rfl, le_rfl, prefix_rfl⟩

theorem trans (h : Waits t t') (h' : Waits t' t'') : Waits t t'' :=
  ⟨h'.started.trans h.started, h'.sent.trans h.sent, h.acked.trans h'.acked,
    h.interactive.trans h'.interactive⟩

theorem enqueue (t : FrameTransport) (frame : Frame) : Waits t (t.enqueue frame) := by
  rcases t.enqueue_cases frame with same | ⟨_, same⟩
  · rw [same]
    exact ⟨rfl, rfl, le_rfl, prefix_rfl⟩
  · rw [same]
    refine ⟨rfl, rfl, le_rfl, ?_⟩
    split
    · exact prefix_append _ _
    · exact prefix_rfl

theorem queueAck (t : FrameTransport) : Waits t t.queueAck :=
  ⟨rfl, rfl, le_rfl, prefix_append _ _⟩

theorem ackRest (t : FrameTransport) : Waits t t.ackRest := by
  unfold FrameTransport.ackRest
  split
  · exact queueAck t
  · exact refl t

theorem setFixedBulkWindow (t : FrameTransport) (bytes : Nat) :
    Waits t (t.setFixedBulkWindow bytes) := by
  unfold FrameTransport.setFixedBulkWindow
  split <;> exact ⟨rfl, rfl, le_rfl, prefix_rfl⟩

theorem dispatch (t : FrameTransport) (frame : Frame) (target : Option Nat) :
    Waits t (t.dispatch frame target) := by
  unfold FrameTransport.dispatch
  split
  · split
    · exact ⟨rfl, rfl, le_rfl, prefix_rfl⟩
    · unfold FrameTransport.handleAck
      dsimp only
      split
      · exact ⟨rfl, rfl, le_rfl, prefix_rfl⟩
      next within =>
        have rises : t.bulkBytesAcked ≤ getLe frame.payload := by omega
        split
        · split <;> exact ⟨rfl, rfl, rises, prefix_rfl⟩
        · exact ⟨rfl, rfl, rises, prefix_rfl⟩
  · dsimp only
    split
    · split
      · exact ⟨rfl, rfl, le_rfl, prefix_append _ _⟩
      · exact ⟨rfl, rfl, le_rfl, prefix_rfl⟩
    · exact ⟨rfl, rfl, le_rfl, prefix_rfl⟩

theorem readFrame (t : FrameTransport) (target : Option Nat) : Waits t (t.readFrame target) := by
  unfold FrameTransport.readFrame
  split
  next frame decoder _ =>
    have decoded : Waits t { t with decoder, received := t.received ++ [frame] } :=
      ⟨rfl, rfl, le_rfl, prefix_rfl⟩
    exact decoded.trans (dispatch _ frame target)
  · split <;> exact ⟨rfl, rfl, le_rfl, prefix_rfl⟩

theorem feed (t : FrameTransport) (bytes : List UInt8) : Waits t (t.feed bytes) :=
  ⟨rfl, rfl, le_rfl, prefix_rfl⟩

theorem close (t : FrameTransport) (reason : CloseReason) : Waits t (t.close reason) :=
  ⟨rfl, rfl, le_rfl, prefix_rfl⟩

theorem write (t : FrameTransport) (offset : Nat) : Waits t { t with writingOffset := offset } :=
  ⟨rfl, rfl, le_rfl, prefix_rfl⟩

theorem setEnd {l : Link} {t : FrameTransport} (h : Waits (l.ends side) t) (side' : Side) :
    Waits (l.ends side') ((l.setEnd side t).ends side') := by
  by_cases same : side' = side
  · rw [same, ends_setEnd]
    exact h
  · rw [Side.eq_other_of_ne same, ends_setEnd_other]
    exact refl _

end Waits

/-- An end begins a frame by its own pick only. -/
theorem waits_or_picks (link : Link) (action : Action) (side : Side) :
    Waits (link.ends side) ((link.effect action).ends side) ∨
      action = .pick side ∧ (link.effect action).ends side = (link.ends side).pick := by
  cases action with
  | takeIn side' frame =>
    unfold effect takeIn
    dsimp only
    split <;> exact .inl (.refl _)
  | enqueue side' frame =>
    unfold effect enqueue
    dsimp only
    split
    · exact .inl (Waits.setEnd (l := link.setSending side' _) (.enqueue _ frame) side)
    · exact .inl (.refl _)
  | pick side' =>
    unfold effect
    dsimp only
    split
    · by_cases same : side = side'
      · rw [same, ends_setEnd]
        exact .inr ⟨rfl, rfl⟩
      · rw [Side.eq_other_of_ne same, ends_setEnd_other]
        exact .inl (.refl _)
    · exact .inl (.refl _)
  | write side' count =>
    exact .inl (Waits.setEnd (l := link.setPipe side' _) (.write _ _) side)
  | read side' count =>
    exact .inl (Waits.setEnd (l := link.setPipe side'.other _) (.feed _ _) side)
  | readFrame side' target => exact .inl (Waits.setEnd (.readFrame _ target) side)
  | ackRest side' => exact .inl (Waits.setEnd (.ackRest _) side)
  | setFixedBulkWindow side' bytes => exact .inl (Waits.setEnd (.setFixedBulkWindow _ bytes) side)
  | close side' reason =>
    unfold effect
    dsimp only
    split
    · exact .inl (Waits.setEnd (.close _ reason) side)
    · exact .inl (.refl _)

/-- The counters of what was sent only rise. -/
theorem sent_le (link : Link) (action : Action) (side : Side) :
    (link.ends side).bulkBytesSent ≤ ((link.effect action).ends side).bulkBytesSent := by
  rcases link.waits_or_picks action side with waits | ⟨_, picks⟩
  · exact waits.sent.ge
  · rw [picks]
    rcases (link.ends side).pick_cases with ⟨_, _, _, same⟩ | ⟨_, _, _, _, _, same⟩ | ⟨_, _, same⟩
    · rw [same]
    · rw [same]
      exact Nat.le_add_right _ _
    · rw [same]

theorem inv_reachable {options : Side → TransportOptions} {link : Link}
    (reach : Reachable step (start options) link) (short : link.Short) : link.Inv := by
  induction reach with
  | start => exact .start options
  | step action _ taken ih =>
    cases taken
    have before : Short _ := fun side => (sent_le _ action side).trans_lt (short side)
    exact (ih before).effect before action

/-- What an end begins after a while: first what waited on the interactive lane, in order. -/
theorem begun_since {link link' : Link} (reach : Reachable step link link') (side : Side) :
    ∃ begun, (link'.ends side).started = (link.ends side).started ++ begun ∧
      ((∃ rest, (link.ends side).interactive = begun ++ rest ∧
        rest <+: (link'.ends side).interactive) ∨ (link.ends side).interactive <+: begun) := by
  induction reach with
  | start =>
    refine ⟨[], (append_nil _).symm, .inl ⟨_, rfl, prefix_rfl⟩⟩
  | @step middle _ action _ taken ih =>
    cases taken
    obtain ⟨begun, started, place⟩ := ih
    rcases middle.waits_or_picks action side with waits | ⟨_, picks⟩
    · refine ⟨begun, waits.started.trans started, ?_⟩
      rcases place with ⟨rest, split, ahead⟩ | all
      · exact .inl ⟨rest, split, ahead.trans waits.interactive⟩
      · exact .inr all
    · rw [picks]
      rcases (middle.ends side).pick_cases with ⟨frame, left, queued, same⟩ |
        ⟨idle, frame, left, queued, _, same⟩ | ⟨idle, _, same⟩
      · rw [same]
        refine ⟨begun ++ [frame], by rw [← append_assoc, ← started], ?_⟩
        rcases place with ⟨rest, split, ahead⟩ | all
        · cases rest with
          | nil => exact .inr (by rw [split, append_nil]; exact prefix_append _ _)
          | cons head rest =>
            rw [queued, cons_prefix_cons] at ahead
            refine .inl ⟨rest, ?_, ahead.2⟩
            rw [split, ahead.1, append_assoc, singleton_append]
        · exact .inr (all.trans (prefix_append _ _))
      · rw [same]
        refine ⟨begun ++ [frame], by rw [← append_assoc, ← started], .inr ?_⟩
        rcases place with ⟨rest, split, ahead⟩ | all
        · rw [idle, prefix_nil] at ahead
          rw [split, ahead, append_nil]
          exact prefix_append _ _
        · exact all.trans (prefix_append _ _)
      · rw [same]
        refine ⟨begun, started, ?_⟩
        exact place

/-! ### Both lanes, both ways -/

/-- No loop of either end has anything to do. -/
def Quiet (link : Link) : Prop := ∀ side,
  (link.ends side).unwritten = [] ∧ (link.ends side).interactive = [] ∧
    ((link.ends side).bulk = [] ∨ (link.ends side).bulkWindow ≤ (link.ends side).unacked) ∧
    link.pipe side = [] ∧ Drained (link.ends side).decoder ∧
    (link.ends side).bulkBytesReceivedAcked = (link.ends side).bulkBytesReceived

theorem onLane_content (lane : Lane) (frames : List Frame) :
    onLane lane (content frames) = content (onLane lane frames) := by
  unfold onLane content
  rw [filter_filter, filter_filter]
  exact filter_congr fun frame _ => Bool.and_comm _ _

/-- A lane's frames that arrived are the first that were sent. -/
theorem delivered_first {link : Link} (inv : link.Inv) (side : Side) (lane : Lane) :
    onLane lane (link.ends side.other).delivered <+: onLane lane (link.ends side).accepted := by
  obtain ⟨rest, first⟩ := (inv.first side).1
  rw [(inv.sound side.other).delivers, ← (inv.sound side).order lane, onLane_content, ← first,
    onLane_append, append_assoc, content_append]
  exact prefix_append _ _

/-- With nothing left to do all has arrived and is acknowledged. -/
theorem received_all {link : Link} (inv : link.Inv) (quiet : link.Quiet) (side : Side) :
    (link.ends side.other).received = (link.ends side).started := by
  have fit := ((allFit_append _ _).mp ((allFit_append _ _).mp (inv.sound side).fits).1).1
  have working := (inv.first side).2
  obtain ⟨soFar, run, stream⟩ := inv.wire side
  obtain ⟨done, _, _, empty, _, _⟩ := quiet side
  obtain ⟨_, _, _, _, drained, _⟩ := quiet side.other
  rw [done, empty, append_nil, append_nil] at stream
  have scanned : scan soFar = ((link.ends side).started, none) := stream ▸ scan_frames fit
  obtain ⟨sound, left⟩ := run
  simp only [working] at left
  have spec := FrameDecoder.next_spec sound working
  rw [drained] at spec
  cases first : firstFrame (link.ends side.other).decoder.pending with
  | incomplete =>
    rw [left.scan_eq, scan_of_incomplete first, append_nil] at scanned
    exact congrArg Prod.fst scanned
  | error error =>
    simp only [first] at spec
    have failed := congrArg (fun answer => answer.2.error) spec
    rw [working] at failed
    cases failed
  | frame frame rest =>
    simp only [first] at spec
    cases spec.1

theorem unacked_quiet {link : Link} (inv : link.Inv) (quiet : link.Quiet) (side : Side) :
    (link.ends side).unacked = 0 := by
  have sound := inv.sound side
  have sound' := inv.sound side.other
  have all := received_all inv quiet side
  have back := received_all inv quiet side.other
  rw [Side.other_other] at back
  obtain ⟨_, idle, _, _, _, acked⟩ := quiet side.other
  have last : (link.ends side).bulkBytesAcked = (link.ends side).bulkBytesSent := by
    have ackedLast := sound'.ackedLast
    rw [idle, append_nil] at ackedLast
    rw [sound.acked, back, ← ackedLast, acked, sound'.got, all, ← sound.sent]
  rw [FrameTransport.unacked, last, Nat.sub_self]

/-- With nothing left to do every frame of a lane has arrived. -/
theorem delivered_all {link : Link} (inv : link.Inv) (quiet : link.Quiet)
    (windows : ∀ side, 0 < (link.ends side).bulkWindow) (side : Side) (lane : Lane) :
    onLane lane (link.ends side.other).delivered = onLane lane (link.ends side).accepted := by
  have nothing : (link.ends side).queue lane = [] := by
    obtain ⟨_, idle, bulk, _⟩ := quiet side
    cases lane with
    | interactive => exact idle
    | bulk =>
      rcases bulk with none | full
      · exact none
      · rw [unacked_quiet inv quiet side] at full
        exact absurd (windows side) (Nat.not_lt.mpr full)
  rw [(inv.sound side.other).delivers, ← (inv.sound side).order lane, nothing, append_nil,
    onLane_content, received_all inv quiet side]

/-- No more is acknowledged than was sent. -/
theorem acked_le_sent {link : Link} (inv : link.Inv) (side : Side) :
    (link.ends side).bulkBytesAcked ≤ (link.ends side).bulkBytesSent := by
  have first := (inv.first side.other).1
  rw [Side.other_other] at first
  obtain ⟨rest, atRest⟩ := first
  have sound := inv.sound side.other
  rw [(inv.sound side).acked, lastAck]
  cases last : (acksOf (link.ends side).received).getLast? with
  | none => exact Nat.zero_le _
  | some ack =>
    have mem : ack ∈ acksOf ((link.ends side.other).started ++ (link.ends side.other).interactive) := by
      rw [← atRest, acksOf_append, acksOf_append]
      exact mem_append_left _ (mem_append_left _ (mem_of_getLast? last))
    calc ack ≤ (link.ends side.other).bulkBytesReceivedAcked := sound.acksWithin ack mem
      _ ≤ (link.ends side.other).bulkBytesReceived := sound.ackedWithin
      _ ≤ (link.ends side).bulkBytesSent := inv.received_le side

/-- Two honest ends, in every state of every run of their sends, writes and reads of any size:
each lane's frames arrive once and in the order they were queued, all of them once nothing is
left to do; what an end begins after any point is first what then waited on the interactive
lane; a bulk frame is begun only with the unacknowledged bytes below the window, which else
never grow; and no acknowledgement, or any other frame, of an end closes the other. -/
theorem twoLanes_exact {options : Side → TransportOptions} {link : Link}
    (reach : Reachable step (start options) link) (short : link.Short) (side : Side) :
    (∀ lane, onLane lane (link.ends side.other).delivered <+:
      onLane lane (link.ends side).accepted) ∧
    (link.Quiet → (∀ side, 0 < (link.ends side).bulkWindow) → ∀ lane,
      onLane lane (link.ends side.other).delivered = onLane lane (link.ends side).accepted) ∧
    (∀ link', Reachable step link link' → ∃ begun,
      (link'.ends side).started = (link.ends side).started ++ begun ∧
        (begun <+: (link.ends side).interactive ∨ (link.ends side).interactive <+: begun)) ∧
    (∀ action frame, ((link.effect action).ends side).started =
        (link.ends side).started ++ [frame] → frame.lane = .bulk →
      (link.ends side).interactive = [] ∧
      (link.ends side).unacked < (link.ends side).bulkWindow ∧
        ((link.effect action).ends side).unacked =
          (link.ends side).unacked + frame.payload.length) ∧
    (∀ action, (link.ends side).unacked < ((link.effect action).ends side).unacked →
      ∃ frame, frame.lane = .bulk ∧ ((link.effect action).ends side).started =
        (link.ends side).started ++ [frame]) ∧
    ∀ reason ∈ (link.ends side).closes, reason ≠ .ackOutside ∧ reason.Outside := by
  have inv := inv_reachable reach short
  have within := acked_le_sent inv side
  refine ⟨delivered_first inv side, fun quiet windows => delivered_all inv quiet windows side, ?_, ?_,
    ?_, ?_⟩
  · intro link' later
    obtain ⟨begun, started, place⟩ := begun_since later side
    refine ⟨begun, started, place.imp_left ?_⟩
    rintro ⟨rest, split, _⟩
    exact ⟨rest, split.symm⟩
  · intro action frame begun bulk
    rcases link.waits_or_picks action side with waits | ⟨_, picks⟩
    · rw [waits.started] at begun
      simp at begun
    · rw [picks] at begun ⊢
      rcases (link.ends side).pick_cases with ⟨other, rest, queued, same⟩ |
        ⟨idle, other, rest, queued, below, same⟩ | ⟨idle, _, same⟩
      · rw [same] at begun
        have one : other = frame := by simpa using begun
        have lane := (inv.sound side).lanes .interactive other (by
          rw [FrameTransport.queue, queued]
          exact mem_cons_self)
        rw [one, bulk] at lane
        cases lane
      · rw [same] at begun ⊢
        have one : other = frame := by simpa using begun
        refine ⟨idle, below, ?_⟩
        simp only [FrameTransport.unacked, one]
        omega
      · rw [same] at begun
        simp at begun
  · intro action grows
    rcases link.waits_or_picks action side with waits | ⟨_, picks⟩
    · have sent := waits.sent
      have acked := waits.acked
      simp only [FrameTransport.unacked] at grows
      omega
    · rw [picks] at grows ⊢
      rcases (link.ends side).pick_cases with ⟨_, _, _, same⟩ |
        ⟨idle, frame, rest, queued, below, same⟩ | ⟨_, _, same⟩
      · rw [same] at grows
        exact absurd grows (lt_irrefl _)
      · refine ⟨frame, (inv.sound side).lanes .bulk frame ?_, ?_⟩
        · rw [FrameTransport.queue, queued]
          exact mem_cons_self
        · rw [same]
      · rw [same] at grows
        exact absurd grows (lt_irrefl _)
  · intro reason mem
    have outside := (inv.sound side).closedOutside reason mem
    exact ⟨fun same => by rw [same] at outside; exact outside, outside⟩

/-- A bulk frame goes over, and its acknowledgement comes back. -/
def roundTrip (frame : Frame) : List Action :=
  [.takeIn .near frame, .enqueue .near frame, .pick .near, .write .near 7, .write .near 100,
    .read .far 9, .readFrame .far none, .read .far 100, .readFrame .far none, .ackRest .far,
    .pick .far, .write .far 100, .read .near 100, .readFrame .near none]

theorem reachable_foldl (actions : List Action) (link : Link) :
    Reachable step link (actions.foldl effect link) := by
  induction actions generalizing link with
  | nil => exact .start
  | cons action rest ih => exact (Reachable.step action .start rfl).trans (ih _)

def chunk : Frame := { type := .treeRows, lane := .bulk, id := 3, payload := [1, 2] }

theorem twoLanes_exact_roundTrip :
    onLane .bulk (((roundTrip chunk).foldl effect (start fun _ => {})).ends .far).delivered =
      onLane .bulk (((roundTrip chunk).foldl effect (start fun _ => {})).ends .near).accepted := by
  refine (twoLanes_exact (reachable_foldl (roundTrip chunk) (start fun _ => {}))
    (fun side => ?_) .near).2.1 (fun side => ?_) (fun side => ?_) .bulk
  · cases side <;> decide +kernel
  · cases side <;> refine ⟨?_, ?_, ?_, ?_, ?_, ?_⟩ <;> decide +kernel
  · cases side <;> decide +kernel

end Link

end Microide.Remote
