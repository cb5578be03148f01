import CipherFS.Core.Operation

/-!
# One worker process and its handle

The parent holds an `OperationHandle` on the worker. A thread of its own,
`run_events`, reads the worker's frames and turns them into controller events;
other threads reach the handle at the same time.
-/

namespace CipherFS.WindowsShell

/-! ## What the worker sends -/

inductive ErrorKindDto where
  | cancelled
  | authentication
  | integrity
  | invalidFormat
  | unsafePath
  | destinationExists
  | sourceChanged
  | io
  | internal
  | workerProtocol
  | workerCrashed
deriving DecidableEq, Repr

inductive WorkerEvent where
  | phaseStarted (phase : OperationPhase)
  | progress (progress : OperationProgress)
  | warning (message : String)
  | temporaryArtifact (kind : TemporaryArtifactKind) (path : Path)
  | commitStarted
  | committed
  | mutationStarted
  | mounted (path : Path)
  | succeeded
  | failed (kind : ErrorKindDto) (message : String)
deriving DecidableEq, Repr

/-- What `read_frame` returns to the parent. -/
inductive Frame where
  | event (event : WorkerEvent)
  | closed
  | invalid (error : String)
deriving DecidableEq, Repr

/-- The frames after which the worker must not be killed. -/
def Frame.entersProtected : Frame → Bool
  | .event .commitStarted | .event .mutationStarted => true
  | _ => false

inductive ControllerEvent where
  | phase (phase : OperationPhase)
  | progress (progress : OperationProgress)
  | warning (message : String)
  | enteredProtected
  | finished (result : Except String Unit)
deriving DecidableEq

/-! ## The handle and the event thread -/

/-- A worker process. A killed one is there until the calls it is in have ended,
however many they are. -/
inductive Process where
  | running
  | killed
  | gone
deriving DecidableEq, Repr

/-- `child` and `input` tell whether the handle still holds the process and its
standard input. -/
structure OperationHandle where
  child : Bool
  input : Bool
  expectedArtifact : Option Path
  cancelling : Bool
  isProtected : Bool
deriving DecidableEq, Repr

/-- Where the thread of `run_events` stands. -/
inductive RunEvents where
  | reading (committed : Bool)
  | ended (result : Except String Unit)
  | cleaning (error : String)
  | closingInput (result : Except String Unit)
  | takingChild (result : Except String Unit)
  | waiting (result : Except String Unit)
  | finished
deriving DecidableEq

/-- A worker process with everything of the parent that belongs to it: the queue
holds the events that were emitted and not yet delivered, and `cleaned` the
paths that `cleanup_path` was called on. -/
structure Operation where
  process : Process
  handle : OperationHandle
  events : RunEvents
  queue : List ControllerEvent
  cleaned : List Path
deriving DecidableEq

namespace Operation

/-- The worker has neither ended nor been killed. -/
def running (op : Operation) : Bool := op.process == .running

/-- The worker can still take a step, and holds its end of the pipe. -/
def alive (op : Operation) : Bool := op.process != .gone

theorem alive_of_running (op : Operation) (h : op.running = true) : op.alive = true := by
  rw [alive, beq_iff_eq.mp h]
  rfl

/-- The event thread is in its loop. -/
def Reading (op : Operation) : Prop := ∃ committed, op.events = .reading committed

/-- `OperationHandle::start`. -/
def start (expectedArtifact : Option Path) : Operation where
  process := .running
  handle := ⟨true, true, expectedArtifact, false, false⟩
  events := .reading false
  queue := []
  cleaned := []

/-- `emit`. -/
def emit (op : Operation) (event : ControllerEvent) : Operation :=
  { op with queue := op.queue ++ [event] }

/-- `break` out of the loop of `run_events`. -/
def breakWith (op : Operation) (result : Except String Unit) : Operation :=
  { op with events := .ended result }

/-- One turn of the loop of `run_events`. -/
def onFrame (op : Operation) (committed : Bool) : Frame → Operation
  | .event (.phaseStarted phase) => op.emit (.phase phase)
  | .event (.progress progress) => op.emit (.progress progress)
  | .event (.temporaryArtifact _ path) =>
      if op.handle.expectedArtifact = some path then op
      else op.breakWith (.error "Worker reported an unexpected temporary artifact")
  | .event .commitStarted | .event .mutationStarted =>
      { op with handle.isProtected := true }.emit .enteredProtected
  | .event .committed => { op with events := .reading true }
  | .event (.warning message) => op.emit (.warning message)
  | .event .succeeded => op.breakWith (.ok ())
  | .event (.failed .cancelled _) => op.breakWith (.error "Operation cancelled")
  | .event (.failed _ message) => op.breakWith (.error message)
  | .event (.mounted _) =>
      op.breakWith (.error "Operation worker returned an unexpected mount event")
  | .closed =>
      op.breakWith (if committed then .ok ()
        else .error "CipherFS worker pipe closed before completion")
  | .invalid error => op.breakWith (.error ("Invalid CipherFS worker response: " ++ error))

/-- The event thread receives a frame. -/
def receive (op : Operation) (frame : Frame) : Option Operation :=
  match op.events with
  | .reading committed => some (op.onFrame committed frame)
  | _ => none

/-- `child.kill()` through the handle. -/
def kill (op : Operation) : Operation :=
  if op.handle.child && op.running then { op with process := .killed } else op

/-- The worker process ends. -/
def exit (op : Operation) : Operation := { op with process := .gone }

@[simp] theorem alive_exit (op : Operation) : op.exit.alive = false := rfl

/-- The event thread after its loop, one step at a time. The lock on `child` is
held from `take` until `wait` returns. -/
def advance (op : Operation) : Option Operation :=
  match op.events with
  | .ended (.error error) => some { op.kill with events := .cleaning error }
  | .ended (.ok ()) => some { op with events := .closingInput (.ok ()) }
  | .cleaning error =>
      some { op with
        cleaned := op.cleaned ++ op.handle.expectedArtifact.toList
        events := .closingInput (.error error) }
  | .closingInput result =>
      some { op with handle.input := false, events := .takingChild result }
  | .takingChild result => some { op with handle.child := false, events := .waiting result }
  | .waiting result =>
      if op.alive then none else some { op.emit (.finished result) with events := .finished }
  | .reading _ | .finished => none

/-- The lock on `child` is free. -/
def childUnlocked (op : Operation) : Bool :=
  match op.events with
  | .waiting _ => false
  | _ => true

/-! ## What the event thread changes -/

theorem handle_kill (op : Operation) : op.kill.handle = op.handle := by
  unfold kill
  split <;> rfl

/-- A frame protects the handle if it opens a protected zone, and changes nothing
else of it. -/
theorem isProtected_onFrame (op : Operation) (committed : Bool) (frame : Frame) :
    (op.onFrame committed frame).handle.isProtected =
      (op.handle.isProtected || frame.entersProtected) ∧
      (op.onFrame committed frame).handle.cancelling = op.handle.cancelling := by
  cases frame with
  | event event =>
      cases event with
      | commitStarted => exact ⟨(Bool.or_true _).symm, rfl⟩
      | mutationStarted => exact ⟨(Bool.or_true _).symm, rfl⟩
      | temporaryArtifact kind path =>
          rw [onFrame]
          split <;> exact ⟨(Bool.or_false _).symm, rfl⟩
      | failed kind message => cases kind <;> exact ⟨(Bool.or_false _).symm, rfl⟩
      | _ => exact ⟨(Bool.or_false _).symm, rfl⟩
  | closed => exact ⟨(Bool.or_false _).symm, rfl⟩
  | invalid error => exact ⟨(Bool.or_false _).symm, rfl⟩

theorem onFrame_of_entersProtected (op : Operation) (committed : Bool) {frame : Frame}
    (h : frame.entersProtected = true) : op.onFrame committed frame =
      { op with handle.isProtected := true }.emit .enteredProtected := by
  cases frame with
  | event event => cases event <;> first | rfl | cases h
  | closed => cases h
  | invalid error => cases h

/-- A frame protects the handle exactly if it opens a protected zone. -/
theorem isProtected_receive {op op' : Operation} {frame : Frame}
    (h : op.receive frame = some op') :
    op'.handle.isProtected = (op.handle.isProtected || frame.entersProtected) ∧
      op'.handle.cancelling = op.handle.cancelling := by
  unfold receive at h
  split at h
  · cases h
    exact isProtected_onFrame op _ frame
  · cases h

/-- Every step of the event thread after its loop. -/
theorem advance_cases {op op' : Operation} (h : op.advance = some op') :
    (∃ error, op.events = .ended (.error error) ∧
      op' = { op.kill with events := .cleaning error }) ∨
    (op.events = .ended (.ok ()) ∧ op' = { op with events := .closingInput (.ok ()) }) ∨
    (∃ error, op.events = .cleaning error ∧ op' = { op with
      cleaned := op.cleaned ++ op.handle.expectedArtifact.toList
      events := .closingInput (.error error) }) ∨
    (∃ result, op.events = .closingInput result ∧
      op' = { op with handle.input := false, events := .takingChild result }) ∨
    (∃ result, op.events = .takingChild result ∧
      op' = { op with handle.child := false, events := .waiting result }) ∨
    ∃ result, op.events = .waiting result ∧ op.alive = false ∧
      op' = { op.emit (.finished result) with events := .finished } := by
  unfold advance at h
  split at h
  · rename_i error hevents
    exact .inl ⟨error, hevents, (Option.some.inj h).symm⟩
  · rename_i hevents
    exact .inr (.inl ⟨hevents, (Option.some.inj h).symm⟩)
  · rename_i error hevents
    exact .inr (.inr (.inl ⟨error, hevents, (Option.some.inj h).symm⟩))
  · rename_i result hevents
    exact .inr (.inr (.inr (.inl ⟨result, hevents, (Option.some.inj h).symm⟩)))
  · rename_i result hevents
    exact .inr (.inr (.inr (.inr (.inl ⟨result, hevents, (Option.some.inj h).symm⟩))))
  · rename_i result hevents
    split at h
    · cases h
    · rename_i halive
      exact .inr (.inr (.inr (.inr (.inr
        ⟨result, hevents, eq_false_of_ne_true halive, (Option.some.inj h).symm⟩))))
  · cases h
  · cases h

theorem isProtected_advance {op op' : Operation} (h : op.advance = some op') :
    op'.handle.isProtected = op.handle.isProtected ∧
      op'.handle.cancelling = op.handle.cancelling := by
  rcases advance_cases h with ⟨error, -, rfl⟩ | ⟨-, rfl⟩ | ⟨error, -, rfl⟩ | ⟨result, -, rfl⟩ |
    ⟨result, -, rfl⟩ | ⟨result, -, -, rfl⟩
  · show op.kill.handle.isProtected = _ ∧ op.kill.handle.cancelling = _
    rw [handle_kill]
    exact ⟨rfl, rfl⟩
  all_goals exact ⟨rfl, rfl⟩

/-- Reading a frame announces no end and keeps the worker. -/
theorem queue_onFrame (op : Operation) (committed : Bool) (frame : Frame) :
    (∀ r, .finished r ∈ (op.onFrame committed frame).queue → .finished r ∈ op.queue) ∧
      (op.onFrame committed frame).handle.child = op.handle.child := by
  have hemit : ∀ event : ControllerEvent, (∀ r, event ≠ .finished r) →
      ∀ r, .finished r ∈ (op.emit event).queue → .finished r ∈ op.queue := by
    intro event hevent r hr
    rcases List.mem_append.mp hr with hr | hr
    · exact hr
    · exact absurd (List.mem_singleton.mp hr).symm (hevent r)
  cases frame with
  | event event =>
      cases event with
      | phaseStarted phase => exact ⟨hemit _ (by rintro _ ⟨⟩), rfl⟩
      | progress progress => exact ⟨hemit _ (by rintro _ ⟨⟩), rfl⟩
      | warning message => exact ⟨hemit _ (by rintro _ ⟨⟩), rfl⟩
      | commitStarted => exact ⟨hemit .enteredProtected (by rintro _ ⟨⟩), rfl⟩
      | mutationStarted => exact ⟨hemit .enteredProtected (by rintro _ ⟨⟩), rfl⟩
      | temporaryArtifact kind path =>
          rw [onFrame]
          split <;> exact ⟨fun _ => id, rfl⟩
      | failed kind message => cases kind <;> exact ⟨fun _ => id, rfl⟩
      | _ => exact ⟨fun _ => id, rfl⟩
  | closed => exact ⟨fun _ => id, rfl⟩
  | invalid error => exact ⟨fun _ => id, rfl⟩

/-- After the loop the event thread reads no more, and only its last step
announces the end. -/
theorem events_advance {op op' : Operation} (h : op.advance = some op') :
    op.events ≠ .finished ∧ (∀ committed, op'.events ≠ .reading committed) ∧
      (op'.events ≠ .finished → op'.queue = op.queue) := by
  rcases advance_cases h with ⟨error, he, rfl⟩ | ⟨he, rfl⟩ | ⟨error, he, rfl⟩ | ⟨result, he, rfl⟩ |
    ⟨result, he, rfl⟩ | ⟨result, he, -, rfl⟩
  · refine ⟨by rw [he]; rintro ⟨⟩, by rintro _ ⟨⟩, fun _ => ?_⟩
    show op.kill.queue = op.queue
    unfold kill
    split <;> rfl
  · exact ⟨by rw [he]; rintro ⟨⟩, by rintro _ ⟨⟩, fun _ => rfl⟩
  · exact ⟨by rw [he]; rintro ⟨⟩, by rintro _ ⟨⟩, fun _ => rfl⟩
  · exact ⟨by rw [he]; rintro ⟨⟩, by rintro _ ⟨⟩, fun _ => rfl⟩
  · exact ⟨by rw [he]; rintro ⟨⟩, by rintro _ ⟨⟩, fun _ => rfl⟩
  · exact ⟨by rw [he]; rintro ⟨⟩, by rintro _ ⟨⟩, fun hne => absurd rfl hne⟩

/-- What a frame makes of the loop. -/
theorem events_onFrame (op : Operation) (committed : Bool) (frame : Frame) :
    (op.onFrame committed frame).process = op.process ∧
    ((op.onFrame committed frame).events = op.events ∨
      ((op.onFrame committed frame).events = .reading true ∧ frame = .event .committed) ∨
      (∃ error, (op.onFrame committed frame).events = .ended (.error error)) ∨
      ((op.onFrame committed frame).events = .ended (.ok ()) ∧
        (frame = .event .succeeded ∨ committed = true))) := by
  cases frame with
  | event event =>
      cases event with
      | committed => exact ⟨rfl, .inr (.inl ⟨rfl, rfl⟩)⟩
      | succeeded => exact ⟨rfl, .inr (.inr (.inr ⟨rfl, .inl rfl⟩))⟩
      | temporaryArtifact kind path =>
          rw [onFrame]
          split
          · exact ⟨rfl, .inl rfl⟩
          · exact ⟨rfl, .inr (.inr (.inl ⟨_, rfl⟩))⟩
      | failed kind message =>
          cases kind <;> exact ⟨rfl, .inr (.inr (.inl ⟨_, rfl⟩))⟩
      | mounted path => exact ⟨rfl, .inr (.inr (.inl ⟨_, rfl⟩))⟩
      | _ => exact ⟨rfl, .inl rfl⟩
  | closed =>
      cases committed with
      | true => exact ⟨rfl, .inr (.inr (.inr ⟨rfl, .inr rfl⟩))⟩
      | false => exact ⟨rfl, .inr (.inr (.inl ⟨_, rfl⟩))⟩
  | invalid error => exact ⟨rfl, .inr (.inr (.inl ⟨_, rfl⟩))⟩

theorem alive_onFrame (op : Operation) (committed : Bool) (frame : Frame) :
    (op.onFrame committed frame).alive = op.alive := by
  rw [alive, (events_onFrame op committed frame).1, alive]

/-! ## One end -/

/-- The end is announced once, when the event thread is through, and last; until
the thread takes the child it can kill it, and it cleans up only after a kill. -/
structure Orderly (op : Operation) : Prop where
  child : op.handle.child = true ∨ (∃ result, op.events = .waiting result) ∨ op.events = .finished
  killed : ∀ error, op.events = .cleaning error → op.running = false
  silent : op.events ≠ .finished → ∀ result, .finished result ∉ op.queue
  once : op.events = .finished → ∃ before result, op.queue = before ++ [.finished result] ∧
    ∀ result', .finished result' ∉ before

theorem orderly_start (artifact : Option Path) : (start artifact).Orderly where
  child := .inl rfl
  killed := nofun
  silent := nofun
  once := nofun

/-- A kill does not wait for the process to end. -/
theorem kill_fields (op : Operation) :
    op.kill.handle = op.handle ∧ op.kill.events = op.events ∧ op.kill.queue = op.queue ∧
      op.kill.alive = op.alive ∧ (op.kill.running = true → op.running = true) ∧
      (op.handle.child = true → op.kill.running = false) := by
  unfold kill
  split
  · rename_i hkill
    obtain ⟨-, hrunning⟩ := Bool.and_eq_true_iff.mp hkill
    refine ⟨rfl, rfl, rfl, ?_, fun _ => hrunning, fun _ => rfl⟩
    rw [alive, alive, beq_iff_eq.mp hrunning]
    rfl
  · rename_i hkill
    refine ⟨rfl, rfl, rfl, rfl, id, fun hchild => ?_⟩
    rw [hchild, Bool.true_and] at hkill
    exact eq_false_of_ne_true hkill

theorem Orderly.kill {op : Operation} (h : op.Orderly) : op.kill.Orderly := by
  obtain ⟨hhandle, hevents, hqueue, -, hrunning, -⟩ := kill_fields op
  exact
    { child := hhandle ▸ hevents ▸ h.child
      killed := fun error he => eq_false_of_ne_true fun hr =>
        Bool.false_ne_true ((h.killed error (hevents ▸ he)).symm.trans (hrunning hr))
      silent := hevents ▸ hqueue ▸ h.silent
      once := hevents ▸ hqueue ▸ h.once }

theorem Orderly.exit {op : Operation} (h : op.Orderly) : op.exit.Orderly :=
  { h with killed := fun _ _ => rfl }

/-- Before its end the event thread is at none of its last two stages. -/
theorem Orderly.holds {op : Operation} (h : op.Orderly) (hw : ∀ result, op.events ≠ .waiting result)
    (hf : op.events ≠ .finished) : op.handle.child = true := by
  rcases h.child with hc | ⟨result, he⟩ | he
  · exact hc
  · exact absurd he (hw result)
  · exact absurd he hf

theorem Orderly.receive {op op' : Operation} {frame : Frame} (h : op.Orderly)
    (hreceive : op.receive frame = some op') : op'.Orderly := by
  unfold Operation.receive at hreceive
  split at hreceive
  · rename_i committed hevents
    obtain rfl := Option.some.inj hreceive
    obtain ⟨hqueue, hchild⟩ := queue_onFrame op committed frame
    obtain ⟨-, hcases⟩ := events_onFrame op committed frame
    have hheld := h.holds (by rw [hevents]; rintro _ ⟨⟩) (by rw [hevents]; rintro ⟨⟩)
    have hsilent : ∀ result, .finished result ∉ (op.onFrame committed frame).queue :=
      fun result hr => h.silent (by rw [hevents]; rintro ⟨⟩) result (hqueue result hr)
    -- the loop goes on, or has just ended
    have hstage : (∀ error, (op.onFrame committed frame).events ≠ .cleaning error) ∧
        (op.onFrame committed frame).events ≠ .finished := by
      rcases hcases with he | ⟨he, -⟩ | ⟨error, he⟩ | ⟨he, -⟩ <;> rw [he]
      · rw [hevents]
        exact ⟨nofun, nofun⟩
      · exact ⟨nofun, nofun⟩
      · exact ⟨nofun, nofun⟩
      · exact ⟨nofun, nofun⟩
    exact
      { child := .inl (hchild.trans hheld)
        killed := fun error he => absurd he (hstage.1 error)
        silent := fun _ => hsilent
        once := fun he => absurd he hstage.2 }
  · cases hreceive

theorem Orderly.advance {op op' : Operation} (h : op.Orderly) (hadvance : op.advance = some op') :
    op'.Orderly := by
  have hsilent := h.silent (events_advance hadvance).1
  rcases advance_cases hadvance with ⟨error, he, rfl⟩ | ⟨he, rfl⟩ | ⟨error, he, rfl⟩ |
    ⟨result, he, rfl⟩ | ⟨result, he, rfl⟩ | ⟨result, he, hrunning, rfl⟩
  · have hheld := h.holds (by rw [he]; rintro _ ⟨⟩) (by rw [he]; rintro ⟨⟩)
    obtain ⟨hhandle, -, hqueue, -, -, hkilled⟩ := kill_fields op
    exact
      { child := .inl ((congrArg OperationHandle.child hhandle).trans hheld)
        killed := fun _ _ => hkilled hheld
        silent := fun _ => hqueue ▸ hsilent
        once := nofun }
  · have hheld := h.holds (by rw [he]; rintro _ ⟨⟩) (by rw [he]; rintro ⟨⟩)
    exact ⟨.inl hheld, nofun, fun _ => hsilent, nofun⟩
  · have hheld := h.holds (by rw [he]; rintro _ ⟨⟩) (by rw [he]; rintro ⟨⟩)
    exact ⟨.inl hheld, nofun, fun _ => hsilent, nofun⟩
  · have hheld := h.holds (by rw [he]; rintro _ ⟨⟩) (by rw [he]; rintro ⟨⟩)
    exact ⟨.inl hheld, nofun, fun _ => hsilent, nofun⟩
  · exact ⟨.inr (.inl ⟨result, rfl⟩), nofun, fun _ => hsilent, nofun⟩
  · exact ⟨.inr (.inr rfl), nofun, fun hne => absurd rfl hne, fun _ => ⟨op.queue, result, rfl, hsilent⟩⟩

end Operation

end CipherFS.WindowsShell
