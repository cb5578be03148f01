import CipherFS.Framework.Result
import CipherFS.Core.V2.Format

/-!
# Entry names

`validate_name` accepts a name when the platform's path grammar reads it as one
`Normal` component. The grammar is `std::path::Path::components`: separators and
empty components vanish, `.` vanishes except at the start of a relative path,
and on Windows a leading letter and colon is a prefix.
-/

namespace CipherFS.V2

/-- The platform the reader was built for. -/
inductive Platform where
  | unix
  | windows
deriving DecidableEq, Repr

/-- `std::path::Component`. A Windows path that opens with two separators starts
with a prefix or the root; it is read as the root here. -/
inductive Component where
  | pathPrefix (drive : Char)
  | rootDir
  | curDir
  | parentDir
  | normal (name : List Char)
deriving DecidableEq, Repr

/-- `std::path::is_separator`. -/
def Platform.isSeparator : Platform → Char → Bool
  | .unix, c => c = '/'
  | .windows, c => c = '/' ∨ c = '\\'

/-- One piece between separators; empty pieces and `.` yield no component. -/
def pieceComponent : List Char → Option Component
  | [] => none
  | ['.'] => none
  | ['.', '.'] => some .parentDir
  | s => some (.normal s)

/-- The components after any prefix. -/
def bodyComponents (os : Platform) (path : List Char) : List Component :=
  (match path with
    | '.' :: rest => if rest.head?.all os.isSeparator then [.curDir] else []
    | c :: _ => if os.isSeparator c then [.rootDir] else []
    | [] => []) ++
  (path.splitOnP os.isSeparator).filterMap pieceComponent

/-- `Path::new(path).components()`. -/
def components (os : Platform) (path : List Char) : List Component :=
  match os, path with
  | .windows, c :: ':' :: rest =>
      if c.isAlpha then .pathPrefix c :: bodyComponents os rest
      else bodyComponents os path
  | _, _ => bodyComponents os path

/-- `validate_name`. -/
def validateName (os : Platform) (name : String) : Result Unit := do
  Result.rejectIf (name.isEmpty ∨ name.utf8ByteSize > maxNameBytes) "Invalid filename length"
  match components os name.toList with
  | [.normal _] => .ok ()
  | _ => Result.bail "Unsafe filename component"

example : validateName .unix "hello.txt" = .ok () := by decide
example : validateName .unix "../escape" = Result.bail "Unsafe filename component" := by decide
example : validateName .unix "/absolute" = Result.bail "Unsafe filename component" := by decide
example : validateName .unix "." = Result.bail "Unsafe filename component" := by decide

end CipherFS.V2
