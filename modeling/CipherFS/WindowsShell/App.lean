import CipherFS.Framework.Runs
import CipherFS.WindowsShell.OperationController

/-!
# The window during an operation

The callbacks of the event loop run one at a time, but each of their accesses to
the shared handle is a step of its own, between which the event thread and the
worker go on. A worker is killed by a user action only through the overlay that
a second Cancel opens.
-/

namespace CipherFS.WindowsShell

/-! ## The window -/

inductive Page where
  | progress
  | result
  | error
deriving DecidableEq, Repr

structure Overlay where
  visible : Bool
  title : String
  detail : String
  confirmLabel : String
deriving DecidableEq, Repr

/-- The overlay that kills when it is confirmed. -/
def Overlay.OffersForceClose (o : Overlay) : Prop := o.visible ∧ o.confirmLabel = "Force close"

/-- The callback a `request_cancel` belongs to. -/
inductive CancelSource where
  | cancelButton
  | overlay
deriving DecidableEq, Repr

/-- The callback that the event loop is in, at its next access to shared state. -/
inductive Callback where
  | idle
  | loadProtected (source : CancelSource)
  | swapCancelling (source : CancelSource)
  | writeCancel (source : CancelSource)
  | offerForceClose
  | closeRequested
  | confirmed
  | forceClose
deriving DecidableEq, Repr

/-- Where a callback may still end in a kill without another look at the
protection of the handle. -/
def Callback.ForceCloseUnderway (overlay : Overlay) (cancelling : Bool) : Callback → Prop
  | .idle | .loadProtected _ | .writeCancel _ => overlay.OffersForceClose
  | .swapCancelling source =>
      overlay.OffersForceClose ∨ source = .cancelButton ∧ cancelling = true
  | .offerForceClose | .forceClose => True
  | .confirmed => overlay.confirmLabel = "Force close"
  | .closeRequested => False

/-- The window and its operation. `operation` tells whether the window still
holds the handle; `killedProtected` records that a user action has killed a
running worker after its handle became protected. -/
structure Shell where
  op : Operation
  operation : Bool
  page : Page
  cancelEnabled : Bool
  overlay : Overlay
  callback : Callback
  killedProtected : Bool
deriving DecidableEq

namespace Shell

/-- The end of `start_operation`. -/
def start (artifact : Option Path) : Shell where
  op := Operation.start artifact
  operation := true
  page := .progress
  cancelEnabled := true
  overlay := ⟨false, "", "", "Confirm"⟩
  callback := .idle
  killedProtected := false

/-- `show_overlay`. -/
def showOverlay (s : Shell) (title detail label : String) : Shell :=
  { s with overlay := ⟨true, title, detail, label⟩ }

/-- A callback returns to the event loop. -/
def backToLoop (s : Shell) : Shell := { s with callback := .idle }

/-! ## Callbacks -/

/-- What `cancel` and `confirm_overlay` do with the result of `request_cancel`;
the text of the window is left out. -/
def cancelRequested (s : Shell) (source : CancelSource) : Except Unit Bool → Shell
  | .ok true =>
      match source with
      | .cancelButton => { s with callback := .offerForceClose }
      | .overlay => s.backToLoop
  | .ok false => s.backToLoop
  | .error () =>
      match source with
      | .cancelButton => { s with page := .error }.backToLoop
      | .overlay => s.backToLoop

/-- `OperationHandle::force_close`, called by the user. -/
def forceClose (s : Shell) : Shell :=
  { s with
    op := s.op.kill
    killedProtected := s.killedProtected ||
      (s.op.running && s.op.handle.child && s.op.handle.isProtected) }

/-- The next step of the callback. `written` tells whether the Cancel command
reached the pipe. -/
def callbackStep (s : Shell) (written : Bool) : Option Shell :=
  match s.callback with
  | .idle => none
  -- `request_cancel`
  | .loadProtected source =>
      some (if s.op.handle.isProtected then s.cancelRequested source (.ok false)
        else { s with callback := .swapCancelling source })
  | .swapCancelling source =>
      some (if s.op.handle.cancelling then s.cancelRequested source (.ok true)
        else { s with
          op.handle.cancelling := true
          callback := .writeCancel source })
  | .writeCancel source =>
      some (s.cancelRequested source
        (if s.op.handle.input ∧ written then .ok false else .error ()))
  -- the end of `cancel`
  | .offerForceClose =>
      some (s.showOverlay "Force close operation worker?"
        ("The worker is still waiting for a safe boundary. " ++
          "Only its exact recorded temporary artifact will be removed.")
        "Force close").backToLoop
  -- `close_handler`
  | .closeRequested =>
      some (if s.op.handle.isProtected then
          s.showOverlay "CipherFS is finishing"
            "The completed result is being committed and cannot be cancelled safely." "Keep open"
        else
          s.showOverlay "Cancel operation?"
            "Request safe cancellation before closing CipherFS." "Cancel operation").backToLoop
  -- `confirm_overlay`
  | .confirmed =>
      some (if s.overlay.confirmLabel = "Force close" then { s with callback := .forceClose }
        else { s with callback := .loadProtected .overlay })
  | .forceClose => if s.op.childUnlocked then some s.forceClose.backToLoop else none

/-- The closure that `start_operation` gives to `OperationHandle::start`. -/
def deliver (s : Shell) : ControllerEvent → Shell
  | .enteredProtected => { s with cancelEnabled := false }
  | .finished (.ok ()) => { s with operation := false, page := .result }
  | .finished (.error e) =>
      if e = "Operation cancelled" then { s with operation := false, page := .result }
      else { s with operation := false, page := .error }
  | .phase _ | .progress _ | .warning _ => s

/-! ## Steps -/

inductive Action where
  | pressCancel (byKey : Bool)
  | requestClose
  | confirmOverlay
  | dismissOverlay
  | callbackStep (written : Bool)
  | deliver
  | frame (frame : Frame)
  | runEvents
  | workerExits
deriving DecidableEq

/-- The actions that are up to the user and the event loop. -/
def Action.isUser : Action → Bool
  | .pressCancel _ | .requestClose | .confirmOverlay | .dismissOverlay | .callbackStep _ => true
  | _ => false

/-- One step of the window, the event thread or the worker. Without an operation
a close request ends the event loop. -/
def step (s : Shell) : Action → Option Shell
  | .pressCancel byKey =>
      -- a key reaches the callback of a disabled button too
      if s.callback = .idle ∧ s.page = .progress ∧ (byKey ∨ s.cancelEnabled) then
        some (if s.operation then { s with callback := .loadProtected .cancelButton } else s)
      else none
  | .requestClose =>
      if s.callback = .idle ∧ s.operation then some { s with callback := .closeRequested }
      else none
  | .confirmOverlay =>
      if s.callback = .idle ∧ s.overlay.visible then
        some { s with
          overlay.visible := false
          callback := if s.operation then .confirmed else .idle }
      else none
  | .dismissOverlay =>
      if s.callback = .idle ∧ s.overlay.visible then some { s with overlay.visible := false }
      else none
  | .callbackStep written => s.callbackStep written
  | .deliver =>
      match s.callback, s.op.queue with
      | .idle, event :: rest => some ({ s with op.queue := rest }.deliver event)
      | _, _ => none
  | .frame frame => (s.op.receive frame).map fun op => { s with op := op }
  | .runEvents => s.op.advance.map fun op => { s with op := op }
  | .workerExits => if s.op.alive then some { s with op := s.op.exit } else none

/-! ## A force close under way -/

/-- A force close is offered to the user or being carried out. -/
def ForceCloseUnderway (s : Shell) : Prop :=
  s.callback.ForceCloseUnderway s.overlay s.op.handle.cancelling

end Shell

end CipherFS.WindowsShell
