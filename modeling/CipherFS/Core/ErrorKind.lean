import CipherFS.Core.Operation

/-!
# Kinds of errors

What a frontend is told about an error: `typed` gives it a kind, which is
inferred from its cause and its text. A cancellation is found below any context.
-/

namespace CipherFS

inductive CoreErrorKind where
  | cancelled
  | authentication
  | integrity
  | invalidFormat
  | unsafePath
  | destinationExists
  | sourceChanged
  | io
  | internal
deriving DecidableEq, Repr

structure CoreError where
  kind : CoreErrorKind
  message : String
deriving DecidableEq, Repr

/-- An `anyhow::Error`, which may be a `CoreError` already. -/
inductive AnyError where
  | core (e : CoreError)
  | raw (e : Error)
deriving DecidableEq, Repr

def Cause.display : Cause → String
  | .message text => text
  | .io text => text
  | .cancelled => "CipherFS operation cancelled"
  | .panic text => text

/-- `format!("{error:#}")`. -/
def Error.display (e : Error) : String := ": ".intercalate (e.contexts ++ [e.cause.display])

/-- An I/O error in the chain of the error. -/
def Error.isIo (e : Error) : Bool :=
  match e.cause with
  | .io _ => true
  | _ => false

/-- `infer_kind`. -/
def inferKind (e : Error) : CoreErrorKind :=
  if e.cause = .cancelled then .cancelled
  else
    let message := e.display.toList.map Char.toLower
    let contains (word : String) : Bool := word.toList <:+: message
    if contains "password" || contains "key slot" then .authentication
    else if contains "authentication" || contains "integrity" then .integrity
    else if contains "destination" && contains "exist" then .destinationExists
    else if contains "source file changed" then .sourceChanged
    else if contains "unsafe" || contains "link" || contains "reparse" || contains "escape" then
      .unsafePath
    else if contains "format" || contains "header" || contains "container version" then
      .invalidFormat
    else if e.isIo then .io
    else .internal

/-- `typed`. -/
def typed : AnyError → AnyError
  | .core e => .core e
  | .raw e => .core ⟨inferKind e, e.display⟩

/-- `format!("{error:#}")` of such an error. -/
def AnyError.display : AnyError → String
  | .core e => e.message
  | .raw e => e.display

/-- `error_kind`. -/
def errorKind : AnyError → CoreErrorKind
  | .core e => e.kind
  | .raw e => if e.cause = .cancelled then .cancelled else if e.isIo then .io else .internal

/-- Only a cancellation has the kind `Cancelled`, and it has it below any context. -/
theorem errorKind_typed_eq_cancelled {e : Error} :
    errorKind (typed (.raw e)) = .cancelled ↔ e.cause = .cancelled := by
  show inferKind e = .cancelled ↔ e.cause = .cancelled
  unfold inferKind
  constructor
  · intro h
    by_contra hne
    rw [if_neg hne] at h
    dsimp only at h
    split_ifs at h
  · exact fun h => if_pos h

end CipherFS
