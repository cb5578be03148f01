import CipherFS.Core.ErrorKind
import CipherFS.Core.FileSystem
import CipherFS.Core.V2.Validate

/-!
# Scanning the source

`scan_source`. What `WalkDir` yields is a parameter: a list of paths and errors.
Everything else that is known of a file is asked of the file system here, one
call after the other.
-/

namespace CipherFS.Pack

open Result WorldProg V2

/-- `FileFingerprint`. -/
structure FileFingerprint where
  len : UInt64
  modified : Nat
  identity : Ino
deriving DecidableEq, Repr

/-- `FileFingerprint::from_file`: one `fstat` on Unix. -/
def FileFingerprint.fromFile (file : FsNode) : Op FileFingerprint := Op.reading fun w =>
  match file with
  | .file ino => .ok ⟨UInt64.ofNat (w.fs.inodes ino).content.length, (w.fs.inodes ino).modified, ino⟩
  | _ => ioError "Not a file"

structure SourceSnapshot where
  path : Path
  fingerprint : FileFingerprint
deriving DecidableEq, Repr

/-- The local variables of `scan_source`. -/
structure Scan where
  entries : List Entry
  pathIds : HashMap Path UInt64
  fileIds : List (ByteArr 16)
  sources : List (UInt64 × SourceSnapshot)
  nextId : UInt64
  totalPlaintext : UInt64
  dataOffset : UInt64

/-- The entry of a directory. -/
def directoryEntry (id parentId : UInt64) (name : String) (depth : UInt32) : Entry :=
  ⟨id, parentId, name, depth, .directory, ByteArr.zero 16, 0, 0, 0, 0⟩

/-- The local variables of `scan_source` before its loop. -/
def Scan.start : Scan :=
  ⟨[directoryEntry 1 1 "" 0], AList.singleton [] 1, [], [], 2, 0, 0⟩

/-- The loop that draws a file id: until it is not zero and not drawn before. -/
def drawFileId (used : List (ByteArr 16)) : WorldProg (ByteArr 16) := Prog.draw fun i w =>
  let id := fillBytes i 0 16
  if id ≠ ByteArr.zero 16 ∧ id ∉ used then some (.ok id, w) else none

/-- What a path is called in the index. -/
structure Place where
  relative : Path
  parentId : UInt64
  name : String
  depth : UInt32

/-- The part of the loop body before `symlink_metadata`. -/
def placeOf (os : Platform) (sourceDir path : Path) (scan : Scan) : Result Place := do
  let relative ← ofOption (if sourceDir.isPrefixOf path then some (path.drop sourceDir.length)
    else none) "prefix not found"
  let parentId ← ofOption (scan.pathIds.lookup relative.dropLast)
    "Directory traversal did not visit parent first"
  let name ← ofOption (relative.getLast?.bind OsString.toStr) "CipherFS v2 requires UTF-8 filenames"
  validateName os name
  let depth := UInt32.ofNat relative.length
  rejectIf (depth > maxDepth) "Source directory is too deeply nested"
  rejectIf (scan.entries.length ≥ maxEntries) "Source exceeds the maximum entry count"
  .ok ⟨relative, parentId, name, depth⟩

/-- The `is_dir` branch. -/
def Scan.addDirectory (scan : Scan) (place : Place) (id : UInt64) : Scan :=
  { scan with
    entries := scan.entries ++ [directoryEntry id place.parentId place.name place.depth]
    pathIds := scan.pathIds.insert place.relative id }

/-- The entry of a file. -/
def fileEntry (scan : Scan) (place : Place) (id : UInt64) (fileId : ByteArr 16) (size : UInt64)
    (sizes : UInt64 × UInt64) : Entry :=
  ⟨id, place.parentId, place.name, place.depth, .file, fileId, size, scan.dataOffset, sizes.2,
    sizes.1⟩

/-- The `is_file` branch. -/
def scanFile (scan : Scan) (place : Place) (id : UInt64) (path : Path) : WorldProg Scan := do
  let sourceFile ← perform (Op.openFile path)
  let size ← perform (Op.fileLen sourceFile)
  let fileId ← drawFileId scan.fileIds
  let sizes ← require (encryptedFileSize size)
  let fingerprint ← perform (FileFingerprint.fromFile sourceFile)
  let totalPlaintext ← require (ofOption (checkedAdd scan.totalPlaintext size)
    "Total source size overflow")
  let dataOffset ← require (ofOption (checkedAdd scan.dataOffset sizes.2)
    "Encrypted data size overflow")
  return { scan with
    entries := scan.entries ++ [fileEntry scan place id fileId size sizes]
    fileIds := fileId :: scan.fileIds
    sources := scan.sources ++ [(id, ⟨path, fingerprint⟩)]
    totalPlaintext := totalPlaintext
    dataOffset := dataOffset }

/-- One iteration of the loop. -/
def scanItem (os : Platform) (sourceDir : Path) (scan : Scan) (item : Result Path) : WorldProg Scan := do
  Prog.check
  let path ← require item
  if path = sourceDir then return scan
  let place ← require (placeOf os sourceDir path scan)
  let metadata ← perform (Op.symlinkMetadata path)
  let id := scan.nextId
  let nextId ← require (ofOption (checkedAdd scan.nextId 1) "Entry id overflow")
  let scan := { scan with nextId := nextId }
  match metadata with
  | .symlink _ => require (bail ("Refusing to pack a link or Windows reparse point: " ++
      Path.display path))
  | .directory => return scan.addDirectory place id
  | .file _ => scanFile scan place id path
  | .special => require (bail ("Unsupported special file in source: " ++ Path.display path))

/-- `scan_source`. -/
def scanSource (os : Platform) (walk : List (Result Path)) (sourceDir : Path) : WorldProg Scan :=
  walk.foldlM (scanItem os sourceDir) .start

end CipherFS.Pack
