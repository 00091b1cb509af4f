/-
The wire's frames.

A frame is a fixed little-endian header (payload length, type, lane and id) and exactly the
announced payload. The decoder takes bytes in whatever pieces the transport read them and
gives frames out in order; it compacts its buffer lazily, checks a header as soon as it is
complete, and fails for good on one it does not know.

**Main results.** `run_scan`: whatever the cuts and the calls in between, what the decoder
gave out, and its error, are those of one scan of the stream; `scan_frames`: the scan of
encoded frames is those frames.
-/

import Microide.Lib.ByteCodec

namespace Microide.Remote

open List Option Lib

/-! ### Frames -/

inductive FrameType where
  | request
  | response
  | notification
  | ack
  | procStdin
  | procStdout
  | procStderr
  | termInput
  | termFrame
  | treeRows
  | objectData
  | writeData
  | watchDelta
  deriving DecidableEq

namespace FrameType

def code : FrameType → Nat
  | request => 1
  | response => 2
  | notification => 3
  | ack => 4
  | procStdin => 16
  | procStdout => 17
  | procStderr => 18
  | termInput => 19
  | termFrame => 20
  | treeRows => 21
  | objectData => 22
  | writeData => 23
  | watchDelta => 24

/-- The type of a code, where `IsKnownFrameType`. -/
def ofCode : Nat → Option FrameType
  | 1 => some request
  | 2 => some response
  | 3 => some notification
  | 4 => some ack
  | 16 => some procStdin
  | 17 => some procStdout
  | 18 => some procStderr
  | 19 => some termInput
  | 20 => some termFrame
  | 21 => some treeRows
  | 22 => some objectData
  | 23 => some writeData
  | 24 => some watchDelta
  | _ => none

@[simp] theorem ofCode_code (type : FrameType) : ofCode type.code = some type := by
  cases type <;> rfl

theorem code_of_ofCode {code : Nat} {type : FrameType} (known : ofCode code = some type) :
    type.code = code := by
  unfold ofCode at known
  split at known <;> cases known <;> rfl

theorem code_lt (type : FrameType) : type.code < 256 ^ 2 := by
  cases type <;> decide

end FrameType

inductive Lane where
  | interactive
  | bulk
  deriving DecidableEq

namespace Lane

def code : Lane → Nat
  | interactive => 0
  | bulk => 1

def ofCode : Nat → Option Lane
  | 0 => some interactive
  | 1 => some bulk
  | _ => none

@[simp] theorem ofCode_code (lane : Lane) : ofCode lane.code = some lane := by
  cases lane <;> rfl

theorem code_of_ofCode {code : Nat} {lane : Lane} (known : ofCode code = some lane) :
    lane.code = code := by
  unfold ofCode at known
  split at known <;> cases known <;> rfl

theorem code_lt (lane : Lane) : lane.code < 256 ^ 1 := by
  cases lane <;> decide

end Lane

def kFrameHeaderBytes : Nat := 4 + 2 + 1 + 8

def kMaxFramePayloadBytes : Nat := 64 * 1024 * 1024

structure Frame where
  type : FrameType := .notification
  lane : Lane := .interactive
  id : UInt64 := 0
  payload : List UInt8 := []
  deriving DecidableEq

/-- One frame on the wire. -/
def Frame.encode (frame : Frame) : List UInt8 :=
  putLe frame.payload.length 4 ++ putLe frame.type.code 2 ++ putLe frame.lane.code 1 ++
    putLe frame.id.toNat 8 ++ frame.payload

/-- `AppendFrame`: nothing is appended where the payload is over the ceiling. -/
def appendFrame (out : List UInt8) (type : FrameType) (lane : Lane) (id : UInt64)
    (payload : List UInt8) : Option (List UInt8) :=
  if kMaxFramePayloadBytes < payload.length then none
  else some (out ++ Frame.encode ⟨type, lane, id, payload⟩)

/-! ### The decoder -/

inductive FrameError where
  | payloadTooLarge
  | unknownType
  | unknownLane
  deriving DecidableEq

structure FrameDecoder where
  buffer : List UInt8 := []
  readOffset : Nat := 0
  error : Option FrameError := none
  deriving DecidableEq

namespace FrameDecoder

/-- The bytes not given out yet. -/
def pending (decoder : FrameDecoder) : List UInt8 := decoder.buffer.drop decoder.readOffset

/-- Append bytes; the consumed ones are dropped first once they are half the buffer. -/
def feed (decoder : FrameDecoder) (bytes : List UInt8) : FrameDecoder :=
  if decoder.error.isSome || bytes.isEmpty then decoder
  else if 0 < decoder.readOffset ∧ decoder.buffer.length ≤ decoder.readOffset * 2 then
    { decoder with buffer := decoder.buffer.drop decoder.readOffset ++ bytes, readOffset := 0 }
  else { decoder with buffer := decoder.buffer ++ bytes }

/-- What a complete header announces: the length, the type and the lane, or why not. -/
def readHeader (header : List UInt8) : Except FrameError (Nat × FrameType × Lane) :=
  let length := getLe (header.take 4)
  if kMaxFramePayloadBytes < length then .error .payloadTooLarge
  else
    match FrameType.ofCode (getLe ((header.drop 4).take 2)) with
    | none => .error .unknownType
    | some type =>
        match Lane.ofCode (getLe ((header.drop 6).take 1)) with
        | none => .error .unknownLane
        | some lane => .ok (length, type, lane)

/-- The next complete frame. -/
def next (decoder : FrameDecoder) : Option Frame × FrameDecoder :=
  if decoder.error.isSome then (none, decoder)
  else
    let pending := decoder.pending
    if pending.length < kFrameHeaderBytes then (none, decoder)
    else
      match readHeader pending with
      | .error error => (none, { decoder with error := some error })
      | .ok (length, type, lane) =>
          if pending.length - kFrameHeaderBytes < length then (none, decoder)
          else
            let frame : Frame := {
              type
              lane
              id := UInt64.ofNat (getLe ((pending.drop 7).take 8))
              payload := (pending.drop kFrameHeaderBytes).take length }
            let readOffset := decoder.readOffset + kFrameHeaderBytes + length
            if readOffset = decoder.buffer.length then
              (some frame, { decoder with buffer := [], readOffset := 0 })
            else (some frame, { decoder with readOffset })

end FrameDecoder

/-! ### One scan of a stream -/

/-- What a stream starts with. -/
inductive FirstFrame where
  | incomplete
  | error (error : FrameError)
  | frame (frame : Frame) (rest : List UInt8)

def firstFrame (stream : List UInt8) : FirstFrame :=
  if stream.length < kFrameHeaderBytes then .incomplete
  else
    match FrameDecoder.readHeader stream with
    | .error error => .error error
    | .ok (length, type, lane) =>
        if stream.length - kFrameHeaderBytes < length then .incomplete
        else .frame {
            type
            lane
            id := UInt64.ofNat (getLe ((stream.drop 7).take 8))
            payload := (stream.drop kFrameHeaderBytes).take length }
          (stream.drop (kFrameHeaderBytes + length))

variable {rest stream : List UInt8} {frame : Frame}

theorem length_rest_lt (first : firstFrame stream = .frame frame rest) :
    rest.length < stream.length := by
  unfold firstFrame at first
  split at first
  · cases first
  next complete =>
    split at first
    · cases first
    next length _ _ _ =>
      split at first
      · cases first
      · cases first
        rw [length_drop]
        simp only [kFrameHeaderBytes] at *
        omega

/-- The frames of a stream, and the error that ends them. -/
def scan (stream : List UInt8) : List Frame × Option FrameError :=
  match _first : firstFrame stream with
  | .incomplete => ([], none)
  | .error error => ([], some error)
  | .frame frame rest => (frame :: (scan rest).1, (scan rest).2)
termination_by stream.length
decreasing_by
  all_goals exact length_rest_lt _first

theorem scan_of_incomplete (first : firstFrame stream = .incomplete) :
    scan stream = ([], none) := by
  rw [scan]
  split <;> simp_all

variable {error : FrameError}

theorem scan_of_error (first : firstFrame stream = .error error) :
    scan stream = ([], some error) := by
  rw [scan]
  split <;> simp_all

theorem scan_of_frame (first : firstFrame stream = .frame frame rest) :
    scan stream = (frame :: (scan rest).1, (scan rest).2) := by
  rw [scan]
  split <;> simp_all

/-! ### More bytes -/

theorem readHeader_append (more : List UInt8) (complete : kFrameHeaderBytes ≤ stream.length) :
    FrameDecoder.readHeader (stream ++ more) = FrameDecoder.readHeader stream := by
  simp only [kFrameHeaderBytes] at complete
  unfold FrameDecoder.readHeader
  rw [take_append_of_le_length (by omega), drop_append_of_le_length (by omega),
    take_append_of_le_length (by simp; omega), drop_append_of_le_length (by omega),
    take_append_of_le_length (by simp; omega)]

/-- More bytes behind a complete frame change nothing of it. -/
theorem firstFrame_append_of_frame (first : firstFrame stream = .frame frame rest)
    (more : List UInt8) : firstFrame (stream ++ more) = .frame frame (rest ++ more) := by
  unfold firstFrame at first ⊢
  split at first
  · cases first
  next complete =>
    rw [readHeader_append more (by omega)]
    split at first
    · cases first
    next length type lane header =>
      split at first
      · cases first
      next whole =>
        cases first
        have header : kFrameHeaderBytes = 15 := rfl
        rw [if_neg (by rw [length_append]; omega), if_neg (by rw [length_append]; omega),
          drop_append_of_le_length (by omega), drop_append_of_le_length (by omega),
          drop_append_of_le_length (by omega),
          take_append_of_le_length (by rw [length_drop]; omega),
          take_append_of_le_length (by rw [length_drop]; omega)]

theorem firstFrame_append_of_error (first : firstFrame stream = .error error) (more : List UInt8) :
    firstFrame (stream ++ more) = .error error := by
  unfold firstFrame at first ⊢
  split at first
  · cases first
  next complete =>
    rw [readHeader_append more (by omega), if_neg (by rw [length_append]; omega)]
    split at first
    next => exact first
    next => split at first <;> cases first

/-- `frames` are the first of a stream, and `rest` is what follows them. -/
inductive Consumes : List UInt8 → List Frame → List UInt8 → Prop where
  | done (stream : List UInt8) : Consumes stream [] stream
  | frame {stream rest left : List UInt8} {frame : Frame} {frames : List Frame} :
      firstFrame stream = .frame frame rest → Consumes rest frames left →
      Consumes stream (frame :: frames) left

variable {frames : List Frame}

namespace Consumes

theorem append {left : List UInt8} (consumes : Consumes stream frames left) (more : List UInt8) :
    Consumes (stream ++ more) frames (left ++ more) := by
  induction consumes with
  | done stream => exact .done _
  | frame first _ ih => exact .frame (firstFrame_append_of_frame first more) ih

theorem snoc {left : List UInt8} (consumes : Consumes stream frames left)
    (next : firstFrame left = .frame frame rest) : Consumes stream (frames ++ [frame]) rest := by
  induction consumes with
  | done stream => exact .frame next (.done _)
  | frame first _ ih => exact .frame first (ih next)

theorem scan_eq {left : List UInt8} (consumes : Consumes stream frames left) :
    scan stream = (frames ++ (scan left).1, (scan left).2) := by
  induction consumes with
  | done stream => rfl
  | frame first _ ih => rw [scan_of_frame first, ih]; rfl

end Consumes

/-! ### Encoded frames -/

theorem firstFrame_encode (fits : frame.payload.length ≤ kMaxFramePayloadBytes)
    (rest : List UInt8) :
    firstFrame (frame.encode ++ rest) = .frame frame rest := by
  obtain ⟨type, lane, id, payload⟩ := frame
  have length : payload.length < 256 ^ 4 := fits.trans_lt (by decide)
  have idFits : id.toNat < 256 ^ 8 := id.toNat_lt
  obtain ⟨header, atHeader⟩ : ∃ header, header = putLe payload.length 4 ++ putLe type.code 2 ++
      putLe lane.code 1 ++ putLe id.toNat 8 := ⟨_, rfl⟩
  have headerLength : header.length = kFrameHeaderBytes := by simp [atHeader, kFrameHeaderBytes]
  have stream : Frame.encode ⟨type, lane, id, payload⟩ ++ rest = header ++ (payload ++ rest) := by
    simp [Frame.encode, atHeader]
  have lengthBytes : header.take 4 = putLe payload.length 4 := by
    simp [atHeader]
  have typeBytes : (header.drop 4).take 2 = putLe type.code 2 := by
    simp [atHeader]
  have laneBytes : (header.drop 6).take 1 = putLe lane.code 1 := by
    rw [atHeader, append_assoc, drop_left' (by simp), take_left' (by simp)]
  have idBytes : (header.drop 7).take 8 = putLe id.toNat 8 := by
    rw [atHeader, drop_left' (by simp), take_of_length_le (by simp)]
  have announced : FrameDecoder.readHeader header = .ok (payload.length, type, lane) := by
    unfold FrameDecoder.readHeader
    rw [lengthBytes, typeBytes, laneBytes, getLe_putLe length, getLe_putLe type.code_lt,
      getLe_putLe lane.code_lt]
    simp [Nat.not_lt.mpr fits]
  rw [stream]
  unfold firstFrame
  rw [if_neg (by simp [headerLength]), readHeader_append _ headerLength.ge, announced]
  dsimp only
  rw [if_neg (by simp [headerLength]), drop_append_of_le_length (by simp [headerLength, kFrameHeaderBytes]),
    take_append_of_le_length (by simp [headerLength, kFrameHeaderBytes]), idBytes,
    getLe_putLe idFits, drop_left' headerLength, take_left' rfl,
    ← drop_drop, drop_left' headerLength, drop_left' rfl, UInt64.ofNat_toNat]

/-- What a header that is not accepted announces. -/
def BadHeader (header : List UInt8) : Prop :=
  kMaxFramePayloadBytes < getLe (header.take 4) ∨
    FrameType.ofCode (getLe ((header.drop 4).take 2)) = none ∨
    Lane.ofCode (getLe ((header.drop 6).take 1)) = none

theorem badHeader_iff {header : List UInt8} :
    BadHeader header ↔ ∃ error, FrameDecoder.readHeader header = .error error := by
  unfold BadHeader FrameDecoder.readHeader
  by_cases long : kMaxFramePayloadBytes < getLe (header.take 4)
  · simp [long]
  cases type : FrameType.ofCode (getLe ((header.drop 4).take 2)) with
  | none => simp [long]
  | some type =>
    cases lane : Lane.ofCode (getLe ((header.drop 6).take 1)) with
    | none => simp [long]
    | some lane => simp [long]

theorem readHeader_ok {header : List UInt8} {length : Nat} {type : FrameType} {lane : Lane}
    (announced : FrameDecoder.readHeader header = .ok (length, type, lane)) :
    length ≤ kMaxFramePayloadBytes ∧ length = getLe (header.take 4) ∧
      type.code = getLe ((header.drop 4).take 2) ∧ lane.code = getLe ((header.drop 6).take 1) := by
  unfold FrameDecoder.readHeader at announced
  by_cases long : kMaxFramePayloadBytes < getLe (header.take 4)
  · simp [long] at announced
  cases known : FrameType.ofCode (getLe ((header.drop 4).take 2)) with
  | none => simp [long, known] at announced
  | some type' =>
    cases knownLane : Lane.ofCode (getLe ((header.drop 6).take 1)) with
    | none => simp [long, known, knownLane] at announced
    | some lane' =>
      simp only [long, known, knownLane] at announced
      obtain ⟨rfl, rfl, rfl⟩ := announced
      exact ⟨Nat.not_lt.mp long, rfl, FrameType.code_of_ofCode known, Lane.code_of_ofCode knownLane⟩

/-- A frame given out was encoded at the front of the stream. -/
theorem encode_of_firstFrame (first : firstFrame stream = .frame frame rest) :
    stream = frame.encode ++ rest ∧ frame.payload.length ≤ kMaxFramePayloadBytes := by
  have header : kFrameHeaderBytes = 15 := rfl
  unfold firstFrame at first
  split at first
  · cases first
  next complete =>
    split at first
    · cases first
    next length type lane announced =>
      split at first
      · cases first
      next whole =>
        cases first
        obtain ⟨fits, atLength, atType, atLane⟩ := readHeader_ok announced
        have payload : ((stream.drop kFrameHeaderBytes).take length).length = length := by
          rw [length_take, length_drop]
          omega
        have bytes : ∀ from_ count, from_ + count ≤ stream.length →
            putLe (getLe ((stream.drop from_).take count)) count = (stream.drop from_).take count := by
          intro from_ count inside
          have taken : ((stream.drop from_).take count).length = count := by
            rw [length_take, length_drop]
            omega
          have back := putLe_getLe ((stream.drop from_).take count)
          rwa [taken] at back
        have idFits : getLe ((stream.drop 7).take 8) < 2 ^ 64 := by
          have lt := getLe_lt ((stream.drop 7).take 8)
          have short : ((stream.drop 7).take 8).length ≤ 8 := length_take_le _ _
          exact lt.trans_le (Nat.pow_le_pow_right (by decide) short)
        refine ⟨?_, by rw [payload]; exact fits⟩
        have length4 := bytes 0 4 (by omega)
        rw [drop_zero] at length4
        rw [Frame.encode, payload, atLength, atType, atLane, length4, bytes 4 2 (by omega),
          bytes 6 1 (by omega), UInt64.toNat_ofNat_of_lt' idFits, bytes 7 8 (by omega), ← atLength]
        have pieces : ∀ from_ count, (stream.drop from_).take count ++ stream.drop (from_ + count) =
            stream.drop from_ := fun from_ count => by
          rw [← drop_drop, take_append_drop]
        have payloadBytes := pieces kFrameHeaderBytes length
        have idBytes : (stream.drop 7).take 8 ++ stream.drop kFrameHeaderBytes = stream.drop 7 :=
          pieces 7 8
        have laneByte : (stream.drop 6).take 1 ++ stream.drop 7 = stream.drop 6 := pieces 6 1
        have typeBytes : (stream.drop 4).take 2 ++ stream.drop 6 = stream.drop 4 := pieces 4 2
        simp only [append_assoc]
        rw [payloadBytes, idBytes, laneByte, typeBytes, take_append_drop]

/-- The encodings of frames, one behind the other, as `AppendFrame` puts them. -/
def appendFrames (frames : List Frame) : Option (List UInt8) :=
  frames.foldlM (fun out frame => appendFrame out frame.type frame.lane frame.id frame.payload) []

/-- Frames whose payloads are within the ceiling. -/
def AllFit (frames : List Frame) : Prop :=
  ∀ frame ∈ frames, frame.payload.length ≤ kMaxFramePayloadBytes

theorem appendFrames_eq_some : appendFrames frames = some stream ↔
      AllFit frames ∧ stream = (frames.map Frame.encode).flatten := by
  have fromAny : ∀ (frames : List Frame) (out : List UInt8),
      frames.foldlM (fun out frame =>
          appendFrame out frame.type frame.lane frame.id frame.payload) out = some stream ↔
        AllFit frames ∧ stream = out ++ (frames.map Frame.encode).flatten := by
    intro frames
    induction frames with
    | nil => simp [AllFit, eq_comm]
    | cons frame rest ih =>
      intro out
      rw [foldlM_cons]
      by_cases tooBig : kMaxFramePayloadBytes < frame.payload.length
      · simp [appendFrame, tooBig, AllFit]
      · have appended : appendFrame out frame.type frame.lane frame.id frame.payload =
            some (out ++ frame.encode) := by
          simp [appendFrame, tooBig]
        have fits := Nat.not_lt.mp tooBig
        rw [appended]
        simp only [bind_eq_bind, bind_some, ih]
        simp [AllFit, fits]
  exact fromAny frames []

/-- A stream that starts with encoded frames starts with those frames. -/
theorem scan_encoded (fit : AllFit frames) (rest : List UInt8) :
    scan ((frames.map Frame.encode).flatten ++ rest) =
      (frames ++ (scan rest).1, (scan rest).2) := by
  induction frames with
  | nil => rfl
  | cons frame frames ih =>
    have first := firstFrame_encode (fit frame mem_cons_self)
      ((frames.map Frame.encode).flatten ++ rest)
    rw [map_cons, flatten_cons, append_assoc, scan_of_frame first,
      ih fun other mem => fit other (mem_cons_of_mem _ mem)]
    rfl

theorem scan_frames (fit : AllFit frames) :
    scan (frames.map Frame.encode).flatten = (frames, none) := by
  have nothing : scan [] = ([], none) := scan_of_incomplete rfl
  have all := scan_encoded fit []
  rwa [nothing, append_nil, append_nil] at all

/-- A scan ends in an error exactly where, behind whole frames, a complete header is not
accepted. -/
theorem scan_fails_iff : (scan stream).2 ≠ none ↔
      ∃ frames rest, AllFit frames ∧ stream = (frames.map Frame.encode).flatten ++ rest ∧
        kFrameHeaderBytes ≤ rest.length ∧ BadHeader rest := by
  have atHeader : ∀ {rest : List UInt8}, kFrameHeaderBytes ≤ rest.length → BadHeader rest →
      ∃ error, firstFrame rest = .error error := by
    intro rest complete bad
    obtain ⟨error, header⟩ := badHeader_iff.mp bad
    exact ⟨error, by simp [firstFrame, Nat.not_lt.mpr complete, header]⟩
  constructor
  · induction stream using scan.induct with
    | case1 stream first =>
      rw [scan_of_incomplete first]
      simp
    | case2 stream error first =>
      intro _
      refine ⟨[], stream, by simp [AllFit], rfl, ?_⟩
      unfold firstFrame at first
      split at first
      · cases first
      next complete =>
        refine ⟨Nat.not_lt.mp complete, badHeader_iff.mpr ?_⟩
        split at first
        next error' header => exact ⟨error', header⟩
        next => split at first <;> cases first
    | case3 stream frame rest first ih =>
      rw [scan_of_frame first]
      intro fails
      obtain ⟨frames, left, fit, split, bad⟩ := ih fails
      obtain ⟨encoded, fits⟩ := encode_of_firstFrame first
      refine ⟨frame :: frames, left, ?_, ?_, bad⟩
      · intro other mem
        rcases mem_cons.mp mem with rfl | mem
        · exact fits
        · exact fit other mem
      · rw [encoded, split, map_cons, flatten_cons, append_assoc]
  · rintro ⟨frames, rest, fit, rfl, complete, bad⟩
    obtain ⟨error, first⟩ := atHeader complete bad
    rw [scan_encoded fit, scan_of_error first]
    simp

/-! ### The decoder's calls -/

variable {decoder : FrameDecoder}

namespace FrameDecoder

/-- The decoder's offset stays inside its buffer. -/
def Sound (decoder : FrameDecoder) : Prop := decoder.readOffset ≤ decoder.buffer.length

theorem feed_of_error (failed : decoder.error = some error) (bytes : List UInt8) :
    decoder.feed bytes = decoder := by
  simp [feed, failed]

theorem next_of_error (failed : decoder.error = some error) : decoder.next = (none, decoder) := by
  simp [next, failed]

/-- However the buffer is compacted, fed bytes come after the pending ones. -/
theorem feed_spec (sound : decoder.Sound) (working : decoder.error = none) (bytes : List UInt8) :
    (decoder.feed bytes).pending = decoder.pending ++ bytes ∧ (decoder.feed bytes).Sound ∧
      (decoder.feed bytes).error = none := by
  unfold Sound at sound
  unfold feed
  split
  next h =>
    have nothing : bytes = [] := by simpa [working] using h
    simp [nothing, working, Sound, sound]
  next =>
    split
    · simp [pending, Sound, working]
    · refine ⟨drop_append_of_le_length sound, ?_, working⟩
      simp only [Sound, length_append]
      omega

/-- What `Next` answers is what the pending bytes start with. -/
theorem next_spec (sound : decoder.Sound) (working : decoder.error = none) :
    match firstFrame decoder.pending with
    | .incomplete => decoder.next = (none, decoder)
    | .error error => decoder.next = (none, { decoder with error := some error })
    | .frame frame rest =>
        decoder.next.1 = some frame ∧ decoder.next.2.pending = rest ∧ decoder.next.2.Sound ∧
          decoder.next.2.error = none := by
  unfold Sound at sound
  have left : decoder.pending.length = decoder.buffer.length - decoder.readOffset :=
    length_drop
  by_cases short : decoder.pending.length < kFrameHeaderBytes
  · simp [firstFrame, next, short]
  cases header : readHeader decoder.pending with
  | error error => simp [firstFrame, next, working, short, header]
  | ok announced =>
    obtain ⟨length, type, lane⟩ := announced
    by_cases cut : decoder.pending.length - kFrameHeaderBytes < length
    · simp [firstFrame, next, header, cut]
    · by_cases whole : decoder.readOffset + kFrameHeaderBytes + length = decoder.buffer.length
      · have nothing : decoder.pending.drop (kFrameHeaderBytes + length) = [] :=
          drop_of_length_le (by omega)
        simp only [firstFrame, next, working, short, header, cut, whole, nothing]
        exact ⟨rfl, rfl, Nat.le_refl 0, rfl⟩
      · have rest : decoder.pending.drop (kFrameHeaderBytes + length) =
            decoder.buffer.drop (decoder.readOffset + kFrameHeaderBytes + length) := by
          rw [pending, drop_drop, Nat.add_assoc]
        simp only [firstFrame, next, working, short, header, cut, whole, rest]
        have inside : decoder.readOffset + kFrameHeaderBytes + length ≤ decoder.buffer.length := by
          omega
        exact ⟨rfl, rfl, inside, rfl⟩

end FrameDecoder

/-- A call on the decoder. -/
inductive DecoderCall where
  | feed (bytes : List UInt8)
  | next

/-- One call: the decoder after it, and the frames given out so far. -/
def decoderStep (state : FrameDecoder × List Frame) : DecoderCall → FrameDecoder × List Frame
  | .feed bytes => (state.1.feed bytes, state.2)
  | .next => (state.1.next.2, state.2 ++ state.1.next.1.toList)

def decoderRun (calls : List DecoderCall) : FrameDecoder × List Frame :=
  calls.foldl decoderStep ({}, [])

/-- The bytes of all the calls. -/
def fed (calls : List DecoderCall) : List UInt8 :=
  (calls.map fun
    | .feed bytes => bytes
    | .next => []).flatten

/-- A decoder on which `Next` gives nothing out and finds nothing more. -/
def Drained (decoder : FrameDecoder) : Prop := decoder.next = (none, decoder)

instance (decoder : FrameDecoder) : Decidable (Drained decoder) := by
  unfold Drained; infer_instance

theorem foldl_decoderStep_of_error {state : FrameDecoder × List Frame}
    (failed : state.1.error = some error) (calls : List DecoderCall) :
    calls.foldl decoderStep state = state := by
  induction calls with
  | nil => rfl
  | cons call rest ih =>
    have same : decoderStep state call = state := by
      cases call with
      | feed bytes => simp [decoderStep, FrameDecoder.feed_of_error failed]
      | next => simp [decoderStep, FrameDecoder.next_of_error failed]
    rw [foldl_cons, same, ih]

/-- What a run has given out, over the stream it was fed: the frames so far are its first,
and the decoder holds what is left, or failed at it. -/
structure RunScan (stream : List UInt8) (state : FrameDecoder × List Frame) : Prop where
  sound : state.1.Sound
  left : match state.1.error with
    | none => Consumes stream state.2 state.1.pending
    | some error => ∃ left, Consumes stream state.2 left ∧ firstFrame left = .error error

/-- One call keeps the invariant over the bytes it adds. -/
theorem RunScan.step {state : FrameDecoder × List Frame} (run : RunScan stream state)
    (call : DecoderCall) : RunScan (stream ++ fed [call]) (decoderStep state call) := by
  obtain ⟨decoder, frames⟩ := state
  obtain ⟨sound, left⟩ := run
  cases failed : decoder.error with
  | some error =>
    simp only [failed] at left
    obtain ⟨left, consumes, stuck⟩ := left
    have same : decoderStep (decoder, frames) call = (decoder, frames) :=
      foldl_decoderStep_of_error failed [call]
    rw [same]
    refine ⟨sound, ?_⟩
    simp only [failed]
    exact ⟨_, consumes.append _, firstFrame_append_of_error stuck _⟩
  | none =>
    simp only [failed] at left
    cases call with
    | feed bytes =>
      obtain ⟨pending, sound', working⟩ := decoder.feed_spec sound failed bytes
      refine ⟨sound', ?_⟩
      simp only [decoderStep, working, pending, fed, map_cons, map_nil,
        flatten_cons, flatten_nil, append_nil]
      exact left.append bytes
    | next =>
      have spec := decoder.next_spec sound failed
      have nothing : stream ++ fed [.next] = stream := by simp [fed]
      rw [nothing]
      cases first : firstFrame decoder.pending with
      | incomplete =>
        simp only [first] at spec
        simp only [decoderStep, spec, toList_none, append_nil]
        exact ⟨sound, by simpa only [failed] using left⟩
      | error error =>
        simp only [first] at spec
        simp only [decoderStep, spec, toList_none, append_nil]
        exact ⟨sound, _, left, first⟩
      | frame frame rest =>
        simp only [first] at spec
        obtain ⟨out, pending, sound', working⟩ := spec
        refine ⟨sound', ?_⟩
        simp only [decoderStep, working, out, pending]
        exact left.snoc first

theorem fed_append (calls more : List DecoderCall) : fed (calls ++ more) = fed calls ++ fed more := by
  simp [fed]

theorem run_runScan (calls : List DecoderCall) : RunScan (fed calls) (decoderRun calls) := by
  have fromAny : ∀ (more : List DecoderCall) (stream : List UInt8)
      {state : FrameDecoder × List Frame}, RunScan stream state →
      RunScan (stream ++ fed more) (more.foldl decoderStep state) := by
    intro more
    induction more with
    | nil =>
      intro stream state run
      simpa [fed] using run
    | cons call rest ih =>
      intro stream state run
      have both : fed (call :: rest) = fed [call] ++ fed rest := fed_append [call] rest
      rw [both, ← append_assoc]
      exact ih _ (run.step call)
  exact fromAny calls [] ⟨Nat.le_refl 0, .done _⟩

/-- At any time the frames given out are the first of the stream's, and an error raised is
the stream's. -/
theorem run_scan_so_far (calls : List DecoderCall) :
    (∃ later, (scan (fed calls)).1 = (decoderRun calls).2 ++ later) ∧
      ∀ error, (decoderRun calls).1.error = some error →
        scan (fed calls) = ((decoderRun calls).2, some error) := by
  obtain ⟨_, left⟩ := run_runScan calls
  cases failed : (decoderRun calls).1.error with
  | some error =>
    simp only [failed] at left
    obtain ⟨left, consumes, stuck⟩ := left
    rw [consumes.scan_eq, scan_of_error stuck]
    exact ⟨⟨[], rfl⟩, by simp⟩
  | none =>
    simp only [failed] at left
    rw [left.scan_eq]
    exact ⟨⟨_, rfl⟩, by simp⟩

/-- Whatever the cuts and the calls in between, a drained decoder gave out the scan of its
stream and ends in the scan's error. -/
theorem run_scan {calls : List DecoderCall} (drained : Drained (decoderRun calls).1) :
    scan (fed calls) = ((decoderRun calls).2, (decoderRun calls).1.error) := by
  obtain ⟨sound, left⟩ := run_runScan calls
  unfold Drained at drained
  cases failed : (decoderRun calls).1.error with
  | some error => exact (run_scan_so_far calls).2 error failed
  | none =>
    simp only [failed] at left
    have spec := FrameDecoder.next_spec sound failed
    rw [left.scan_eq]
    cases first : firstFrame (decoderRun calls).1.pending with
    | incomplete =>
      rw [scan_of_incomplete first]
      simp
    | error error =>
      simp only [first, drained] at spec
      have := congrArg (fun answer => answer.2.error) spec
      simp [failed] at this
    | frame frame rest =>
      simp only [first, drained] at spec
      cases spec.1

/-- Enough calls of `Next` drain the decoder. -/
theorem exists_drained (calls : List DecoderCall) :
    ∃ n, Drained (decoderRun (calls ++ List.replicate n .next)).1 := by
  have fromAny : ∀ (k : Nat) (state : FrameDecoder × List Frame), state.1.Sound →
      state.1.pending.length = k →
      ∃ n, Drained ((List.replicate n DecoderCall.next).foldl decoderStep state).1 := by
    intro k
    induction k using Nat.strong_induction_on with
    | _ k ih =>
      intro state sound left
      cases failed : state.1.error with
      | some error => exact ⟨0, FrameDecoder.next_of_error failed⟩
      | none =>
        have spec := FrameDecoder.next_spec sound failed
        cases first : firstFrame state.1.pending with
        | incomplete =>
          simp only [first] at spec
          exact ⟨0, spec⟩
        | error error =>
          simp only [first] at spec
          have after : (decoderStep state .next).1.error = some error := by
            simp [decoderStep, spec]
          exact ⟨1, FrameDecoder.next_of_error after⟩
        | frame frame rest =>
          simp only [first] at spec
          obtain ⟨_, pending, sound', _⟩ := spec
          have shorter : rest.length < k := left ▸ length_rest_lt first
          obtain ⟨n, drained⟩ := ih rest.length shorter (decoderStep state .next) sound'
            (by rw [← pending]; rfl)
          exact ⟨n + 1, drained⟩
  obtain ⟨n, drained⟩ := fromAny _ (decoderRun calls) (run_runScan calls).sound rfl
  refine ⟨n, ?_⟩
  rwa [decoderRun, foldl_append]

/-! ### Decoding inverts encoding -/

/-- The decoder under any fragmentation: appended frames come out again, in order and with no
error; the frames and the error of a drained decoder are those of the bytes it was fed; an
error is permanent; it is raised exactly where a complete header is not accepted; and enough
calls of `Next` drain it. -/
theorem frameDecoder_exact :
    (∀ frames calls, appendFrames frames = some (fed calls) →
      (decoderRun calls).1.error = none ∧
        (∃ later, frames = (decoderRun calls).2 ++ later) ∧
        (Drained (decoderRun calls).1 → (decoderRun calls).2 = frames)) ∧
    (∀ calls calls', fed calls = fed calls' → Drained (decoderRun calls).1 →
      Drained (decoderRun calls').1 →
      (decoderRun calls).2 = (decoderRun calls').2 ∧
        (decoderRun calls).1.error = (decoderRun calls').1.error) ∧
    (∀ calls more error, (decoderRun calls).1.error = some error →
      decoderRun (calls ++ more) = decoderRun calls) ∧
    (∀ calls, Drained (decoderRun calls).1 →
      ((decoderRun calls).1.error ≠ none ↔
        ∃ frames rest, AllFit frames ∧ fed calls = (frames.map Frame.encode).flatten ++ rest ∧
          kFrameHeaderBytes ≤ rest.length ∧ BadHeader rest)) ∧
    ∀ calls, ∃ n, Drained (decoderRun (calls ++ List.replicate n .next)).1 := by
  refine ⟨?_, ?_, ?_, ?_, exists_drained⟩
  · intro frames calls appended
    obtain ⟨fit, stream⟩ := appendFrames_eq_some.mp appended
    have scanned := scan_frames fit
    rw [← stream] at scanned
    obtain ⟨soFar, failed⟩ := run_scan_so_far calls
    rw [scanned] at soFar failed
    refine ⟨?_, soFar, fun drained => ?_⟩
    · cases error : (decoderRun calls).1.error with
      | none => rfl
      | some error' => cases failed error' error
    · have whole := run_scan drained
      rw [scanned] at whole
      exact (congrArg Prod.fst whole).symm
  · intro calls calls' same drained drained'
    have whole := run_scan drained
    rw [same, run_scan drained'] at whole
    exact ⟨(congrArg Prod.fst whole).symm, (congrArg Prod.snd whole).symm⟩
  · intro calls more error failed
    rw [decoderRun, foldl_append]
    exact foldl_decoderStep_of_error failed more
  · intro calls drained
    have whole := run_scan drained
    rw [← scan_fails_iff, whole]

/-- A request of two payload bytes. -/
def twoByteRequest : Frame := { type := .request, id := 7, payload := [1, 2] }

/-- A frame cut inside its header. -/
theorem frameDecoder_exact_cut :
    (decoderRun [.feed (twoByteRequest.encode.take 3), .next,
      .feed (twoByteRequest.encode.drop 3), .next]).2 = [twoByteRequest] :=
  (frameDecoder_exact.1 [twoByteRequest] _ (by decide +kernel)).2.2 (by decide +kernel)

end Microide.Remote
