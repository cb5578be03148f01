import CipherFS.Core.ErrorKind
import CipherFS.Framework.Framing
import CipherFS.WindowsShell.OperationController

/-!
# The worker protocol

The worker writes its events as frames to its standard output. What the parent
reads is what the worker has written, in order, as far as the stream goes.
-/

namespace CipherFS.WindowsShell

/-- `MAX_FRAME_SIZE`. -/
def maxFrameSize : Nat := 8 * 1024 * 1024

/-- `rmp_serde` on worker events: an event with a path that is not UTF-8 has no
encoding. -/
structure FrameCodec where
  encode : WorkerEvent → Option Bytes
  decode : Bytes → Except String WorkerEvent
  decode_encode : ∀ {event payload}, encode event = some payload → decode payload = .ok event

namespace FrameCodec

variable (K : FrameCodec)

/-- The payload that `write_frame` writes, if it does. -/
def payload (event : WorkerEvent) : Option Bytes :=
  (K.encode event).filter fun payload => payload.length ≤ maxFrameSize

/-- `write_frame`, whose error the reporter ignores. -/
def writeFrame (event : WorkerEvent) : Bytes := (K.payload event).elim [] Framing.frame

/-- `read_frame`, and what is left of the stream. -/
def readFrame (closed : Bool) (pipe : Bytes) : Option (Frame × Bytes) :=
  match Framing.read maxFrameSize closed pipe with
  | .blocked => none
  | .closed => some (.closed, pipe)
  | .truncatedLength =>
      some (.invalid "Truncated worker frame length: failed to fill whole buffer", pipe)
  | .tooLarge => some (.invalid "Worker protocol frame is too large", pipe)
  | .empty => some (.invalid "Worker protocol frame is empty", pipe)
  | .truncated =>
      some (.invalid "Truncated worker protocol frame: failed to fill whole buffer", pipe)
  | .payload payload rest =>
    match K.decode payload with
    | .ok event => some (.event event, rest)
    | .error text => some (.invalid ("Malformed worker protocol frame: " ++ text), rest)

/-- The stream of some events. -/
def stream (events : List WorkerEvent) : Bytes := events.flatMap K.writeFrame

variable {K} {events : List WorkerEvent} {event : WorkerEvent} {closed : Bool}
  {pipe rest pipe' : Bytes} {frame : Frame}

theorem stream_append (more : List WorkerEvent) :
    K.stream (events ++ more) = K.stream events ++ K.stream more := List.flatMap_append

/-- An event that cannot be written leaves no trace in the stream. -/
theorem stream_eq : K.stream events = (events.filterMap K.payload).flatMap Framing.frame := by
  unfold stream
  induction events with
  | nil => rfl
  | cons e rest ih =>
      rw [List.flatMap_cons, ih]
      cases he : K.payload e with
      | none => rw [List.filterMap_cons_none he, writeFrame, he, Option.elim_none, List.nil_append]
      | some p => rw [List.filterMap_cons_some he, writeFrame, he, Option.elim_some, List.flatMap_cons]

theorem payload_eq_some {p : Bytes} (h : K.payload event = some p) :
    K.decode p = .ok event ∧ p.length < 256 ^ 4 := by
  obtain ⟨hencode, hlen⟩ := Option.filter_eq_some_iff.mp h
  refine ⟨K.decode_encode hencode, Nat.lt_of_le_of_lt (of_decide_eq_true hlen) ?_⟩
  decide

/-- **Wherever the worker is cut off, an event that the parent reads was written,
and the stream goes on behind it.** -/
theorem readFrame_stream (hstream : pipe ++ rest = K.stream events)
    (h : K.readFrame closed pipe = some (.event event, pipe')) :
    ∃ before after, events = before ++ event :: after ∧ pipe' ++ rest = K.stream after := by
  unfold readFrame at h
  split at h
  · cases h
  · cases h
  · cases h
  · cases h
  · cases h
  · cases h
  · rename_i p rest' hread
    rw [stream_eq] at hstream
    have hsize : ∀ q ∈ events.filterMap K.payload, q.length < 256 ^ 4 := by
      intro q hq
      obtain ⟨e, -, he⟩ := List.mem_filterMap.mp hq
      exact (payload_eq_some he).2
    obtain ⟨tail, hpayloads, hrest⟩ := Framing.read_prefix hstream hsize hread
    obtain ⟨before, e, after, rfl, -, he, htail⟩ := List.filterMap_eq_cons_iff.mp hpayloads
    rw [(payload_eq_some he).1] at h
    cases h
    refine ⟨before, after, rfl, ?_⟩
    rw [hrest, stream_eq, htail]

/-- A worker that is gone keeps nobody waiting. -/
theorem readFrame_closed : ∃ r, K.readFrame true pipe = some r := by
  unfold readFrame
  split
  · rename_i hblocked
    exact absurd hblocked Framing.read_closed
  all_goals first | exact ⟨_, rfl⟩ | skip
  split <;> exact ⟨_, rfl⟩

/-- A reading takes a frame from the pipe or ends the loop. -/
theorem readFrame_shrinks (h : K.readFrame closed pipe = some (frame, pipe')) :
    pipe'.length < pipe.length ∨ pipe' = pipe ∧ ∀ event, frame ≠ .event event := by
  unfold readFrame at h
  split at h
  · cases h
  · cases h
    exact .inr ⟨rfl, nofun⟩
  · cases h
    exact .inr ⟨rfl, nofun⟩
  · cases h
    exact .inr ⟨rfl, nofun⟩
  · cases h
    exact .inr ⟨rfl, nofun⟩
  · cases h
    exact .inr ⟨rfl, nofun⟩
  · rename_i hread
    have hlt := Framing.length_lt_of_read hread
    split at h <;> cases h <;> exact .inl hlt

end FrameCodec

/-! ## What the worker reports -/

/-- `PipeReporter::event`. -/
def reportEvent : OperationEvent → Option WorkerEvent
  | .phaseStarted phase => some (.phaseStarted phase)
  | .progress progress => some (.progress progress)
  | .warning text => some (.warning text)
  | .temporaryArtifact kind path => some (.temporaryArtifact kind path)
  | .commitStarted => some .commitStarted
  | .committed => some .committed
  | .mutationStarted => some .mutationStarted
  | .scanCompleted _ _ => none

/-- `error_kind` of the worker. -/
def errorKindDto : CoreErrorKind → ErrorKindDto
  | .cancelled => .cancelled
  | .authentication => .authentication
  | .integrity => .integrity
  | .invalidFormat => .invalidFormat
  | .unsafePath => .unsafePath
  | .destinationExists => .destinationExists
  | .sourceChanged => .sourceChanged
  | .io => .io
  | .internal => .internal

/-- `terminal` of `run_stdio`. A panic ends the process without it. -/
def terminal : Except Error Unit → Option WorkerEvent
  | .ok () => some .succeeded
  | .error e =>
    match e.cause with
    | .panic _ => none
    | _ => some (.failed (errorKindDto (errorKind (typed (.raw e)))) (typed (.raw e)).display)

theorem reportEvent_committed {event : OperationEvent} (h : reportEvent event = some .committed) :
    event = .committed := by
  cases event with
  | committed => rfl
  | _ => cases h

theorem reportEvent_succeeded {event : OperationEvent} : reportEvent event ≠ some .succeeded := by
  intro h
  cases event <;> cases h

end CipherFS.WindowsShell
