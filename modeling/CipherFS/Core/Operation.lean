import CipherFS.Framework.Bytes
import CipherFS.Framework.Checked
import CipherFS.Framework.RelyGuarantee
import CipherFS.Framework.Result
import CipherFS.Framework.Text

/-!
# Operation lifecycle

Cancellation, events and progress, which every operation shares. They are one
part, `Control`, of the state that the steps of an operation change; any state
type with such a part has the operations of this file.
-/

namespace CipherFS

/-- `OsString` on Unix: any bytes, of which only UTF-8 has a `to_str`. -/
inductive OsString where
  | utf8 (name : String)
  | raw (bytes : Bytes)
deriving DecidableEq, Repr

/-- `to_string_lossy`. -/
def OsString.toStringLossy : OsString → String
  | utf8 name => name
  | raw bytes => String.ofList (Text.fromUtf8Lossy bytes)

/-- `to_str`. -/
def OsString.toStr : OsString → Option String
  | utf8 name => some name
  | raw _ => none

/-- An absolute path, one component after the other. -/
abbrev Path := List OsString

/-- No component is `..`: the system would follow it, and the source skips it where
it opens one directory after the other. -/
def Path.Plain (p : Path) : Prop := .utf8 ".." ∉ p

instance (p : Path) : Decidable p.Plain := inferInstanceAs (Decidable (_ ∉ p))

/-- `Path::display`. -/
def Path.display (p : Path) : String := "/" ++ "/".intercalate (p.map OsString.toStringLossy)

inductive OperationPhase where
  | scan
  | keyDerivation
  | encrypt
  | selfVerify
  | extract
  | verify
  | commit
deriving DecidableEq, Repr

structure OperationProgress where
  phase : OperationPhase
  completed : UInt64
  total : UInt64
deriving DecidableEq, Repr

inductive TemporaryArtifactKind where
  | packContainer
  | extractionTree
deriving DecidableEq, Repr

inductive OperationEvent where
  | phaseStarted (phase : OperationPhase)
  | scanCompleted (entries : Nat) (bytes : UInt64)
  | progress (progress : OperationProgress)
  | warning (text : String)
  | temporaryArtifact (kind : TemporaryArtifactKind) (path : Path)
  | commitStarted
  | committed
  | mutationStarted
deriving DecidableEq, Repr

/-- The cancellation token, what has been reported, and the counters of the
progress trackers. -/
structure Control where
  cancelled : Bool
  events : List OperationEvent
  completed : OperationPhase → UInt64

/-- The state of an operation that nobody has cancelled. -/
def Control.start : Control := ⟨false, [], fun _ => 0⟩

/-- A state with a control part. -/
class Controlled (σ : Type) where
  control : σ → Control
  setControl : σ → Control → σ

namespace Prog

variable {σ ι α : Type} [Controlled σ]

/-- Changing the control part. -/
def onControl (f : Control → Control) : Prog σ ι Error Unit :=
  modify fun s => Controlled.setControl s (f (Controlled.control s))

/-- `CancellationToken::check`. -/
def check : Prog σ ι Error Unit :=
  call fun _ s => (if (Controlled.control s).cancelled then .error ⟨.cancelled, []⟩ else .ok (), s)

/-- `reporter.event`. -/
def event (e : OperationEvent) : Prog σ ι Error Unit :=
  onControl fun c => { c with events := c.events ++ [e] }

/-- `Context::context`. -/
def context (text : String) (m : Prog σ ι Error α) : Prog σ ι Error α :=
  m.mapError fun e => ⟨e.cause, text :: e.contexts⟩

/-- `anyhow::bail!`. -/
def bail (text : String) : Prog σ ι Error α := throw ⟨.message text, []⟩

/-- `if condition { bail!(text) }`. -/
def rejectIf (condition : Prop) [Decidable condition] (text : String) : Prog σ ι Error Unit :=
  ofExcept (Result.rejectIf condition text)

end Prog

/-! ## Progress -/

/-- A `ProgressReporter`: what of an event reaches the frontend, and how. -/
abbrev Reporter : Type := OperationEvent → Option OperationEvent

/-- The reporter of the frontend itself. -/
def Reporter.frontend : Reporter := some

/-- `reporter.event` of some reporter. -/
def Prog.report {σ ι : Type} [Controlled σ] (reporter : Reporter) (e : OperationEvent) :
    Prog σ ι Error Unit :=
  Prog.onControl fun c => { c with events := c.events ++ (reporter e).toList }

/-- A `ProgressTracker`: its counter is in the shared state. -/
structure ProgressTracker where
  phase : OperationPhase
  total : UInt64
  reporter : Reporter

namespace ProgressTracker

variable {σ ι : Type} [Controlled σ]

/-- `ProgressTracker::new`. -/
def new (phase : OperationPhase) (total : UInt64) (reporter : Reporter) :
    Prog σ ι Error ProgressTracker := do
  Prog.report reporter (.phaseStarted phase)
  Prog.report reporter (.progress ⟨phase, 0, total⟩)
  Prog.onControl fun c => { c with completed := fun p => if p = phase then 0 else c.completed p }
  return ⟨phase, total, reporter⟩

/-- `advance`: the lock is held until the event has been reported. -/
def advance (t : ProgressTracker) (amount : UInt64) : Prog σ ι Error Unit :=
  Prog.onControl fun c =>
    let completed := min (saturatingAdd (c.completed t.phase) amount) t.total
    { c with
      completed := fun p => if p = t.phase then completed else c.completed p
      events := c.events ++ (t.reporter (.progress ⟨t.phase, completed, t.total⟩)).toList }

end ProgressTracker

end CipherFS
