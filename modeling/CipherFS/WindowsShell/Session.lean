import CipherFS.Core.Publication
import CipherFS.WindowsShell.Protocol

/-!
# A worker and its parent

One `pack` or `extract` from the start of its worker process to the end of
`run_events`: the worker takes its steps and writes its frames, the pipe carries
any part of them, the parent reads, kills and cleans up, and everybody else acts
in between. The process can end at any point; killed, it goes on until it does.
-/

namespace CipherFS.WindowsShell

open WorldProg

variable {Key : Type}

/-! ## The request -/

/-- The constructors of `WorkerOperation` that have an output. -/
inductive OutputOperation where
  | pack (source output temporary : Path) (password : String) (duressPassword : Option String)
  | extract (container output staging : Path) (password : String)

namespace OutputOperation

/-- The temporary artifact, which the parent expects, and the output. -/
def route : OutputOperation → Route
  | pack _ output temporary _ _ => ⟨.packContainer, temporary, output⟩
  | extract _ output staging _ => ⟨.extractionTree, staging, output⟩

/-- `execute` of the worker. -/
def execute (R : V2.Reader Key) (walk : List (Result Path)) (batchSize : Nat) :
    OutputOperation → WorldProg Unit
  | pack source output temporary password duressPassword =>
      Pack.execute R walk
        { source, output, password, duressPassword
          params := .default
          maxIndexSize := V2.maxIndexSize
          temporaryPath := some temporary }
  | extract container output staging password =>
      Extract.execute R { container, output, password, batchSize, stagingPath := some staging }

end OutputOperation

/-- `cleanup_path`. -/
def cleanupPath (path : Path) : WorldProg Unit := do
  let found ← attempted (Op.symlinkMetadata path)
  match found with
  | .ok (.file _) =>
      let _ ← attempted (Op.removeFile path)
  | .ok .directory =>
      let _ ← attempted (Op.removeDirAll path)
  | _ => pure ()

/-! ## The state -/

/-- `worker` is what is left of `execute`, and `concluded` tells that the worker
is past it. `buffer` is what the worker has written and the pipe has not taken;
`cleanup` is what is left of `cleanup_expected`. -/
structure Session where
  op : Operation
  world : World
  worker : Task World WorldInput Error
  concluded : Bool
  buffer : Bytes
  pipe : Bytes
  cleanup : Task World WorldInput Error

namespace Session

/-- The worker has its request, and the parent expects the artifact of it. -/
def start (R : V2.Reader Key) (walk : List (Result Path)) (batchSize : Nat)
    (operation : OutputOperation) (fs : Fs) (nextOther : Nat) : Session where
  op := .start (some operation.route.artifact)
  world := .start fs nextOther
  worker := (operation.execute R walk batchSize).task
  concluded := false
  buffer := []
  pipe := []
  cleanup := (cleanupPath operation.route.artifact).task

inductive Action where
  | worker (p : Pick WorldInput)
  | conclude
  | flush (n : Nat)
  | exit
  | read
  | readFails (error : String)
  | cleanup (p : Pick WorldInput)
  | runEvents
  | forceClose
  | env (a : EnvAction)

/-- The actions of the user and of everybody else, the cancellation among them. -/
def Action.isOutside : Action → Bool
  | .forceClose | .env _ => true
  | _ => false

/-- The actions of `run_events`. -/
def Action.isRunEvents : Action → Bool
  | .read | .readFails _ | .cleanup _ | .runEvents => true
  | _ => false

/-- What a step of the worker has reported. -/
def reported (w w' : World) : List WorkerEvent :=
  (w'.control.events.drop w.control.events.length).filterMap reportEvent

/-- The result of the worker, once it has one. -/
def result? : Task World WorldInput Error → Option (Except Error Unit)
  | .done => some (.ok ())
  | .fail e => some (.error e)
  | _ => none

/-- One step of the worker process, the parent, or somebody else. The calls that a
killed worker is in still end, and when it is gone the pipe has no other end. -/
def step (K : FrameCodec) (s : Session) : Action → Option Session
  | .worker p =>
    if s.op.alive ∧ s.concluded = false then
      (s.worker.step s.world p).map fun (worker, world) =>
        { s with worker, world, buffer := s.buffer ++ K.stream (reported s.world world) }
    else none
  | .conclude =>
    if s.op.running ∧ s.concluded = false then
      (result? s.worker).map fun result =>
        { s with concluded := true, buffer := s.buffer ++ K.stream (terminal result).toList }
    else none
  | .flush n =>
    if s.op.alive ∧ 0 < n ∧ n ≤ s.buffer.length then
      some { s with pipe := s.pipe ++ s.buffer.take n, buffer := s.buffer.drop n }
    else none
  | .exit => if s.op.alive then some { s with op := s.op.exit } else none
  | .read =>
    (K.readFrame (!s.op.alive) s.pipe).bind fun (frame, pipe) =>
      (s.op.receive frame).map fun op => { s with op, pipe }
  | .readFails error => (s.op.receive (.invalid error)).map fun op => { s with op }
  | .cleanup p =>
    match s.op.events with
    | .cleaning _ => (s.cleanup.step s.world p).map fun (cleanup, world) => { s with cleanup, world }
    | _ => none
  | .runEvents =>
    match s.op.events with
    | .cleaning _ => if s.cleanup.ended then s.op.advance.map fun op => { s with op } else none
    | _ => s.op.advance.map fun op => { s with op }
  | .forceClose => if s.op.childUnlocked then some { s with op := s.op.kill } else none
  | .env a => (s.world.env a).map fun world => { s with world }

end Session

end CipherFS.WindowsShell
