/-
One end of a connection's frames.

Two queues, one frame half written, the decoder of what arrives and the counters of the bulk
window. Each definition is a locked section of the transport or one turn of one of its loops,
so that the sections of several threads can be put in any order. The clock, and the bandwidth
measured by it, enter as the window they aim at. The queues hold frames; their encoding is
made when they are written.

**Main results.** `enqueue_cases`: what the locked section of `Send` does; `accepted_send`: when
a send queues its frame; `pick_cases`: what the writer starts.
-/

import Microide.Lib.Runs
import Microide.Remote.RemoteFrame

namespace Microide.Remote

open Lib

inductive CloseReason where
  | pollFailed
  | queueFull
  | writeFailed
  | malformedAck
  | ackOutside
  | decoder (error : FrameError)
  | peerClosed
  | readFailed
  | failed (reason : String)

/-- `FrameDecoderErrorText`. -/
def FrameError.text : FrameError → String
  | .payloadTooLarge => "frame announces a payload over the 64 MiB ceiling"
  | .unknownType => "frame of an unknown type"
  | .unknownLane => "frame on an unknown lane"

def CloseReason.text : CloseReason → String
  | .pollFailed => "poll failed"
  | .queueFull => "the peer stopped reading (outbound queue full)"
  | .writeFailed => "write to the peer failed"
  | .malformedAck => "malformed ack frame"
  | .ackOutside => "ack outside the bytes sent"
  | .decoder error => error.text
  | .peerClosed => "the peer closed the connection"
  | .readFailed => "read from the peer failed"
  | .failed reason => reason

structure TransportOptions where
  maxQueuedBytes : Nat := 256 * 1024 * 1024
  bulkWindowFloor : Nat := 64 * 1024
  bulkWindowCap : Nat := 1024 * 1024
  bulkWindowInitial : Nat := 256 * 1024
  ackEveryBytes : Nat := 32 * 1024

/-- `std::clamp`. -/
def clamp (value low high : Nat) : Nat :=
  if value < low then low else if high < value then high else value

structure FrameTransport where
  options : TransportOptions := {}
  bulkWindow : Nat := clamp options.bulkWindowInitial options.bulkWindowFloor options.bulkWindowCap
  fixedBulkWindow : Nat := 0
  closed : Bool := false
  interactive : List Frame := []
  bulk : List Frame := []
  queuedBytes : Nat := 0
  overflowed : Bool := false
  writing : List UInt8 := []
  writingOffset : Nat := 0
  decoder : FrameDecoder := {}
  bulkBytesSent : Nat := 0
  bulkBytesAcked : Nat := 0
  bulkBytesReceived : Nat := 0
  bulkBytesReceivedAcked : Nat := 0
  -- What happened so far, which the code itself does not keep: the frames that `Send` queued,
  -- those whose writing began, those the decoder gave out and `on_frame` got, and each reason
  -- to close.
  accepted : List Frame := []
  started : List Frame := []
  received : List Frame := []
  delivered : List Frame := []
  closes : List CloseReason := []

namespace FrameTransport

/-- `Close`; only the first reason is reported. -/
def close (t : FrameTransport) (reason : CloseReason) : FrameTransport :=
  { t with closed := true, closes := t.closes ++ [reason] }

/-! ### Send -/

/-- What `Send` checks before it queues. -/
def admits (t : FrameTransport) (frame : Frame) : Bool :=
  frame.type ≠ .ack && !t.closed && frame.payload.length ≤ kMaxFramePayloadBytes

/-- The section of `Send` that queues. -/
def enqueue (t : FrameTransport) (frame : Frame) : FrameTransport :=
  let size := frame.encode.length
  if t.overflowed || t.options.maxQueuedBytes < t.queuedBytes + size then
    { t with overflowed := true }
  else
    let t := { t with queuedBytes := t.queuedBytes + size, accepted := t.accepted ++ [frame] }
    match frame.lane with
    | .interactive => { t with interactive := t.interactive ++ [frame] }
    | .bulk => { t with bulk := t.bulk ++ [frame] }

/-- `Send` with no other thread in between. -/
def send (t : FrameTransport) (frame : Frame) : Bool × FrameTransport :=
  if t.admits frame then
    let t := t.enqueue frame
    (!t.overflowed, t)
  else (false, t)

/-! ### FlushWrites -/

/-- The next frame to write, once the last is written: an interactive one first, a bulk one
only within the window. -/
def pick (t : FrameTransport) : FrameTransport :=
  let t := { t with writing := [], writingOffset := 0 }
  match t.interactive with
  | frame :: rest => { t with
      interactive := rest
      writing := frame.encode
      queuedBytes := t.queuedBytes - frame.encode.length
      started := t.started ++ [frame] }
  | [] =>
      match t.bulk with
      | frame :: rest =>
          if t.bulkBytesSent - t.bulkBytesAcked < t.bulkWindow then { t with
            bulk := rest
            writing := frame.encode
            bulkBytesSent := t.bulkBytesSent + frame.payload.length
            queuedBytes := t.queuedBytes - frame.encode.length
            started := t.started ++ [frame] }
          else t
      | [] => t

/-- What is left of the frame being written. -/
def unwritten (t : FrameTransport) : List UInt8 := t.writing.drop t.writingOffset

/-! ### ReadAvailable -/

def queueAck (t : FrameTransport) : FrameTransport :=
  let frame : Frame := {
    type := .ack
    lane := .interactive
    id := 0
    payload := putLe t.bulkBytesReceived 8 }
  { t with
    bulkBytesReceivedAcked := t.bulkBytesReceived
    queuedBytes := t.queuedBytes + frame.encode.length
    interactive := t.interactive ++ [frame] }

/-- The adaptive window aimed at `target`. -/
def retargetBulkWindow (t : FrameTransport) (target : Nat) : FrameTransport :=
  { t with bulkWindow := clamp target t.options.bulkWindowFloor t.options.bulkWindowCap }

/-- `SetFixedBulkWindow`. -/
def setFixedBulkWindow (t : FrameTransport) (bytes : Nat) : FrameTransport :=
  let t := { t with fixedBulkWindow := bytes }
  if bytes ≠ 0 then { t with bulkWindow := bytes } else t

/-- `target` is what the ack's round trip and bandwidth aim the window at, where they are
measured. -/
def handleAck (t : FrameTransport) (payload : List UInt8) (target : Option Nat) :
    FrameTransport :=
  let acked := getLe payload
  if t.bulkBytesSent < acked ∨ acked < t.bulkBytesAcked then t.close .ackOutside
  else
    let t := match target with
      | some target => if t.fixedBulkWindow = 0 then t.retargetBulkWindow target else t
      | none => t
    { t with bulkBytesAcked := acked }

def feed (t : FrameTransport) (bytes : List UInt8) : FrameTransport :=
  { t with decoder := t.decoder.feed bytes }

/-- A frame of the peer's: an ack is the transport's own, any other is `on_frame`'s. -/
def dispatch (t : FrameTransport) (frame : Frame) (target : Option Nat) : FrameTransport :=
  if frame.type = .ack then
    if frame.lane ≠ .interactive ∨ frame.payload.length ≠ 8 then t.close .malformedAck
    else t.handleAck frame.payload target
  else
    let t := match frame.lane with
      | .bulk =>
          let t := { t with bulkBytesReceived := t.bulkBytesReceived + frame.payload.length }
          if t.options.ackEveryBytes ≤ t.bulkBytesReceived - t.bulkBytesReceivedAcked then
            t.queueAck
          else t
      | .interactive => t
    { t with delivered := t.delivered ++ [frame] }

/-- One turn of the loop over the decoder's frames. -/
def readFrame (t : FrameTransport) (target : Option Nat) : FrameTransport :=
  match t.decoder.next with
  | (some frame, decoder) =>
      { t with decoder, received := t.received ++ [frame] }.dispatch frame target
  | (none, decoder) =>
      match decoder.error with
      | some error => { t with decoder }.close (.decoder error)
      | none => { t with decoder }

/-- The end of a read: bulk still unacked is acknowledged. -/
def ackRest (t : FrameTransport) : FrameTransport :=
  if t.bulkBytesReceivedAcked < t.bulkBytesReceived then t.queueAck else t

/-! ### What the sections do -/

theorem enqueue_of_room {t : FrameTransport} {frame : Frame} (calm : t.overflowed = false)
    (room : t.queuedBytes + frame.encode.length ≤ t.options.maxQueuedBytes) :
    t.enqueue frame = { t with
      queuedBytes := t.queuedBytes + frame.encode.length
      accepted := t.accepted ++ [frame]
      interactive := if frame.lane = .interactive then t.interactive ++ [frame]
        else t.interactive
      bulk := if frame.lane = .bulk then t.bulk ++ [frame] else t.bulk } := by
  unfold enqueue
  simp only [calm, Nat.not_lt.mpr room]
  cases frame.lane <;> rfl

theorem enqueue_of_full {t : FrameTransport} {frame : Frame}
    (full : t.overflowed = true ∨ t.options.maxQueuedBytes < t.queuedBytes + frame.encode.length) :
    t.enqueue frame = { t with overflowed := true } := by
  unfold enqueue
  rcases full with passed | full
  · simp only [passed, Bool.true_or, if_true]
  · simp only [full, decide_true, Bool.or_true, if_true]

/-- Either the queue overflows, or the frame is the last of its lane's queue. -/
theorem enqueue_cases (t : FrameTransport) (frame : Frame) :
    t.enqueue frame = { t with overflowed := true } ∨
      t.overflowed = false ∧
        t.enqueue frame = { t with
          queuedBytes := t.queuedBytes + frame.encode.length
          accepted := t.accepted ++ [frame]
          interactive := if frame.lane = .interactive then t.interactive ++ [frame]
            else t.interactive
          bulk := if frame.lane = .bulk then t.bulk ++ [frame] else t.bulk } := by
  by_cases passed : t.overflowed = true
  · exact .inl (enqueue_of_full (.inl passed))
  · have calm := Bool.eq_false_iff.mpr passed
    by_cases room : t.queuedBytes + frame.encode.length ≤ t.options.maxQueuedBytes
    · exact .inr ⟨calm, enqueue_of_room calm room⟩
    · exact .inl (enqueue_of_full (.inr (Nat.lt_of_not_le room)))

/-- A send that queues its frame. -/
def Takes (t : FrameTransport) (frame : Frame) : Prop :=
  t.admits frame = true ∧ t.overflowed = false ∧
    t.queuedBytes + frame.encode.length ≤ t.options.maxQueuedBytes

instance (t : FrameTransport) (frame : Frame) : Decidable (t.Takes frame) := by
  unfold Takes; infer_instance

theorem accepted_send (t : FrameTransport) (frame : Frame) :
    (t.send frame).2.accepted = if t.Takes frame then t.accepted ++ [frame] else t.accepted := by
  unfold send
  by_cases admitted : t.admits frame = true
  · rw [if_pos admitted]
    by_cases takes : t.Takes frame
    · rw [if_pos takes, enqueue_of_room takes.2.1 takes.2.2]
    · have full : t.overflowed = true ∨
          t.options.maxQueuedBytes < t.queuedBytes + frame.encode.length := by
        by_contra room
        simp only [not_or, Bool.not_eq_true, Nat.not_lt] at room
        exact takes ⟨admitted, room⟩
      rw [if_neg takes, enqueue_of_full full]
  · rw [if_neg admitted, if_neg fun takes => admitted takes.1]

/-- The writer starts the first interactive frame, or, with none, the first bulk frame within
the window, or nothing. -/
theorem pick_cases (t : FrameTransport) : (∃ frame rest, t.interactive = frame :: rest ∧
      t.pick = { t with
        interactive := rest
        writing := frame.encode
        writingOffset := 0
        queuedBytes := t.queuedBytes - frame.encode.length
        started := t.started ++ [frame] }) ∨
    (t.interactive = [] ∧ ∃ frame rest, t.bulk = frame :: rest ∧
      t.bulkBytesSent - t.bulkBytesAcked < t.bulkWindow ∧
      t.pick = { t with
        bulk := rest
        writing := frame.encode
        writingOffset := 0
        bulkBytesSent := t.bulkBytesSent + frame.payload.length
        queuedBytes := t.queuedBytes - frame.encode.length
        started := t.started ++ [frame] }) ∨
    (t.interactive = [] ∧ (t.bulk = [] ∨ t.bulkWindow ≤ t.bulkBytesSent - t.bulkBytesAcked) ∧
      t.pick = { t with writing := [], writingOffset := 0 }) := by
  unfold pick
  dsimp only
  split
  next frame rest queued => exact .inl ⟨frame, rest, queued, rfl⟩
  next none =>
    split
    next frame rest queued =>
      split
      next open_ => exact .inr (.inl ⟨none, frame, rest, queued, open_, rfl⟩)
      next full => exact .inr (.inr ⟨none, .inr (Nat.not_lt.mp full), rfl⟩)
    next nothing => exact .inr (.inr ⟨none, .inl nothing, rfl⟩)

end FrameTransport

end Microide.Remote
