import CipherFS.Core.ErrorKind
import CipherFS.Core.FileSystem
import CipherFS.Core.V2.Names

/-!
# The extraction tree

`SafeRoot` builds a tree of directories and files below a private sibling of the
destination and installs it as a whole. A directory handle is the path below the
staging directory at which it was opened: no other path can be built from it.
The builds for the two platforms differ in how the parent is opened, in the names
they take and in what they sync.
-/

namespace CipherFS

open Result WorldProg V2

/-- `SafeRoot`. -/
structure SafeRoot where
  directories : HashMap UInt64 Path
  parent : Path
  stagingName : OsString
  targetName : OsString

/-- `PendingFile`. -/
structure PendingFile where
  parent : Path
  tempName : OsString
  finalName : OsString
  file : Nat

/-- An ancestor is opened, and its metadata is read. -/
def openAncestor (p : Path) : WorldProg Unit := do
  let node ← (perform (Op.symlinkMetadata p)).context
    ("Unable to open output ancestor " ++ Path.display p)
  perform Op.sync
  require (rejectIf (node ≠ .directory)
    ("Output path cannot traverse a link or reparse point: " ++ Path.display p))

/-- `open_verified_directory`: from the root down, through real directories. The
path is plain. -/
def openVerifiedDirectory (p : Path) : Platform → WorldProg Unit
  | .unix => do
    perform (Op.openDirectory [])
    ((List.range p.length).forM fun k => perform (Op.openDirectory (p.take (k + 1)))).context
      "Output parent contains a missing, non-directory, or symbolic-link component"
  | .windows => (List.range (p.length + 1)).forM fun k => openAncestor (p.take k)

/-- `validate_output_name`. -/
def validateOutputName (name : String) : Platform → Result Unit
  | .unix => validateName .unix name
  | .windows => rejectIf (name = "" ∨ name = "." ∨ name = ".." ∨
      name.toList.any fun c => c = '/' ∨ c = '\\') "Invalid Windows output name"

/-- `allocate_staging_name`, with the attempts that are left. -/
def allocateStagingName (parent : Path) (targetName : OsString) : Nat → WorldProg OsString
  | 0 => require (bail "Unable to allocate an extraction staging directory")
  | attempts + 1 => do
    let random ← random 8
    let candidate := OsString.utf8 ("." ++ targetName.toStringLossy ++ ".cipherfs-stage-" ++
      String.ofList (Text.hexEncode random.val))
    let found ← attempted (Op.symlinkMetadata (parent ++ [candidate]))
    if found.isOk then allocateStagingName parent targetName attempts else return candidate

/-- The staging name that a frontend has asked for. -/
def requestedStagingName (target : Path) (requested : Path) : WorldProg OsString := do
  require (rejectIf (requested = [] ∨ requested.dropLast ≠ target.dropLast)
    "Extraction staging directory must be a sibling of the destination")
  require (rejectIf (requested = target)
    "Extraction staging directory must differ from the destination")
  let name ← require (ofOption requested.getLast? "Extraction staging path must name a directory")
  let found ← attempted (Op.symlinkMetadata requested)
  require (rejectIf found.isOk "Extraction staging directory already exists")
  return name

/-- `staging_name` of `open_new_at`. -/
def chooseStagingName (target : Path) (targetName : OsString) : Option Path → WorldProg OsString
  | some requested => requestedStagingName target requested
  | none => allocateStagingName target.dropLast targetName 32

/-- `sync_cap_directory`. -/
def syncDirectory (p : Path) : Platform → WorldProg Unit
  | .unix => do
    perform (Op.openDirectory p)
    perform Op.sync
  | .windows => pure ()

namespace SafeRoot

/-- The staging directory. -/
def staging (root : SafeRoot) : Path := root.parent ++ [root.stagingName]

/-- The destination. -/
def target (root : SafeRoot) : Path := root.parent ++ [root.targetName]

/-- The part of `open_new_at` before the staging directory is made. -/
def choose (target : Path) (requested : Option Path) (os : Platform) : WorldProg SafeRoot := do
  let found ← attempted (Op.symlinkMetadata target)
  require (rejectIf found.isOk (("Extraction destination already exists; " ++
    "choose a path that does not exist: ") ++ Path.display target))
  let targetName ← require (ofOption target.getLast?
    "Extraction destination must have a parent directory")
  let parent := target.dropLast
  (openVerifiedDirectory parent os).context
    ("Unable to safely open output parent " ++ Path.display parent)
  let found ← attempted (Op.symlinkMetadata target)
  require (rejectIf found.isOk "Extraction destination was created concurrently")
  let stagingName ← chooseStagingName target targetName requested
  return ⟨∅, parent, stagingName, targetName⟩

/-- The part of `open_new_at` that makes the staging directory. -/
def make (root : SafeRoot) : WorldProg SafeRoot := do
  (perform (Op.createDir root.staging)).context "Unable to create extraction staging directory"
  (perform (Op.orDisturbed .notOpened (Op.openDirectory root.staging))).context
    "Unable to open extraction staging directory"
  return { root with directories := root.directories.insert 1 [] }

/-- `install_root_id`. -/
def installRootId (root : SafeRoot) (id : UInt64) : WorldProg SafeRoot := do
  let directory ← require (ofOption (root.directories.lookup 1) "Output root is not open")
  perform Op.sync
  return { root with directories := root.directories.insert id directory }

/-- `create_directory`. -/
def createDirectory (root : SafeRoot) (os : Platform) (id parentId : UInt64) (name : String) :
    WorldProg SafeRoot := do
  require (validateOutputName name os)
  let parent ← require (ofOption (root.directories.lookup parentId)
    "Parent directory has not been created")
  let path := parent ++ [.utf8 name]
  (perform (Op.createDir (root.staging ++ path))).context "Unable to create output directory"
  let node ← perform (Op.symlinkMetadata (root.staging ++ path))
  require (rejectIf (node ≠ .directory) "Output directory is not a safe real directory")
  (perform (Op.openDirectory (root.staging ++ path))).context
    "Unable to open output directory without escaping output root"
  return { root with directories := root.directories.insert id path }

/-- The name of a temporary output file. -/
def tempName (entryId : UInt64) (random : ByteArr 8) : OsString :=
  .utf8 (".cipherfs-" ++ toString entryId ++ "-" ++ String.ofList (Text.hexEncode random.val) ++
    ".tmp")

/-- `begin_file`. The guard of the `PendingFile` is armed when it has been built. -/
def beginFile (root : SafeRoot) (os : Platform) (parentId : UInt64) (finalName : String)
    (entryId : UInt64) : WorldProg PendingFile := do
  require (validateOutputName finalName os)
  let parent ← require (ofOption (root.directories.lookup parentId)
    "Parent directory has not been created")
  let found ← attempted (Op.symlinkMetadata (root.staging ++ (parent ++ [.utf8 finalName])))
  require (rejectIf found.isOk ("Duplicate output entry " ++ finalName))
  let random ← random 8
  let name := tempName entryId random
  let file ← (perform (Op.createNew (root.staging ++ (parent ++ [name])))).context
    "Unable to create temporary output file"
  perform Op.sync
  Prog.modify fun w => { w with guards := w.guards ++ [root.staging ++ (parent ++ [name])] }
  return ⟨root.staging ++ parent, name, .utf8 finalName, file⟩

/-- `commit`. -/
def commit (ω : IterOrder) (os : Platform) (root : SafeRoot) : WorldProg (Option String) := do
  (ω.arrange root.directories.values).forM fun directory =>
    syncDirectory (root.staging ++ directory) os
  (perform (Op.renameNoReplace root.staging root.target)).context
    ("Unable to install " ++ Path.display root.target)
  let synced ← (syncDirectory root.parent os).attempt
  return match synced with
    | .ok () => none
    | .error e => some ("Unable to sync extraction parent after commit: " ++ e.display)

/-- The destructors of the pending files and of the tree. -/
def dropRoot (root : SafeRoot) : WorldProg Unit := do
  let guards ← Prog.read World.guards
  guards.forM fun path => do
    let _ ← attempted (Op.removeFile path)
  let _ ← attempted (Op.orDisturbed .notRemoved (Op.removeDirAll root.staging))

end SafeRoot

namespace PendingFile

def temp (pending : PendingFile) : Path := pending.parent ++ [pending.tempName]
def final (pending : PendingFile) : Path := pending.parent ++ [pending.finalName]

/-- `finish_writing` of a file that is still open. -/
def finishWriting : WorldProg Unit := do
  perform Op.sync
  perform Op.sync

/-- `commit` of a file that has been closed. -/
def commit (pending : PendingFile) : WorldProg Unit := do
  (perform (Op.rename pending.temp pending.final)).context
    "Unable to install staged extracted file"
  Prog.modify fun w => { w with guards := w.guards.erase pending.temp }

end PendingFile

end CipherFS
