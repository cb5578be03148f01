import CipherFS.Core.Pack.Header
import CipherFS.Core.Pack.Scan
import CipherFS.Core.V2.OpenFile

/-!
# Packing

`pack_inner`: the scan, the header, the container in its temporary file, the
self-verification, and the rename that publishes it.
-/

namespace CipherFS.Pack

open Result WorldProg V2

variable {Key : Type}

/-- `PackRequest` with its options. -/
structure PackRequest where
  source : Path
  output : Path
  password : String
  duressPassword : Option String
  params : Argon2Params
  maxIndexSize : UInt64
  temporaryPath : Option Path

/-- `SelfVerifyReporter`: only progress passes, under another phase. -/
def selfVerifyReporter : Reporter
  | .progress p =>
    some (.progress (if p.phase = .verify then { p with phase := .selfVerify } else p))
  | _ => none

/-! ## The header -/

/-- Everything that is known before the output is touched. -/
structure Prepared where
  scan : Scan
  header : Header (ByteArr 48)
  dek : ByteArr 32
  encryptedIndex : Bytes

/-- The random bytes of the header, in the order of the calls. -/
def headerRandom : WorldProg (HeaderRandom (ByteArr 48)) := Prog.call fun i w =>
  let slot (start : Nat) : SlotRandom (ByteArr 48) :=
    ⟨fillBytes i start 16, fillBytes i (start + 16) 12, fillBytes i (start + 28) 48⟩
  (.ok ⟨fillBytes i 0 16, fillBytes i 16 12, fillBytes i 28 32, slot 60, slot 136, slot 212,
    slot 288, slot 364⟩, w)

/-- The checks of `pack_inner` before the scan. -/
def inspectRequest (req : PackRequest) : WorldProg Unit := do
  Prog.check
  let sourceMeta ← (perform (Op.symlinkMetadata req.source)).context
    ("Unable to inspect " ++ Path.display req.source)
  require (rejectIf (sourceMeta ≠ .directory)
    "Pack source must be a real directory, not a link or reparse point")
  require (checkRequest req.password req.duressPassword req.params)
  Prog.check

/-- `serialized_index` and `index_size`. -/
def serializeIndex (R : Reader Key) (req : PackRequest) (entries : List Entry) :
    WorldProg (Bytes × UInt64) := do
  let serialized ← require (ofOption (R.codec.encode ⟨entries⟩) "index encoding failed")
  let indexSize ← require (ofOption (checkedAdd (UInt64.ofNat serialized.length) tagSize)
    "Index size overflow")
  let limit := min req.maxIndexSize maxIndexSize
  require (rejectIf (indexSize > limit) (s!"Encrypted index is {indexSize} bytes, exceeding " ++
    s!"the configured/local limit of {limit} bytes"))
  return (serialized, indexSize)

/-- The header with its keyslots. -/
def makeHeader (R : Reader Key) (req : PackRequest) (indexSize : UInt64) (scan : Scan) :
    WorldProg (Header (ByteArr 48) × ByteArr 32) := do
  let r ← headerRandom
  let header := blankHeader indexSize scan.dataOffset (UInt64.ofNat scan.entries.length) r
  Prog.event (.phaseStarted .keyDerivation)
  let header ← require (configureDuress R.crypto header req.duressPassword req.params r.configured)
  Prog.check
  let slot ← require (makeKeySlot R.crypto header req.password r.dek 1 req.params r.keySlot)
  Prog.check
  return (header.setSlot .first slot, r.dek)

/-- The part of `pack_inner` before the output is touched. -/
def prepare (R : Reader Key) (walk : List (Result Path)) (req : PackRequest) :
    WorldProg Prepared := do
  inspectRequest req
  Prog.event (.phaseStarted .scan)
  Prog.event (.progress ⟨.scan, 0, 0⟩)
  let scan ← scanSource R.os walk req.source
  Prog.event (.scanCompleted (scan.entries.length - 1) scan.totalPlaintext)
  let (serialized, indexSize) ← serializeIndex R req scan.entries
  let (header, dek) ← makeHeader R req indexSize scan
  let indexKey ← require (deriveIndexKey R.crypto dek header.containerId)
  let encryptedIndex ← require (encryptAead R.crypto indexKey header.indexNonce
    (indexAad R.crypto header) serialized)
  require (rejectIf (UInt64.ofNat encryptedIndex.length ≠ header.indexSize)
    "Internal index size mismatch")
  return ⟨scan, header, dek, encryptedIndex⟩

/-! ## The temporary path -/

/-- A path is chosen for the container when the call that looks for an object
there finds none, or fails; its guard is made at once. -/
def reserve (p : Path) (lookup : Fs → Option FsNode) : WorldProg Bool := Prog.call fun i w =>
  if i.fault.isSome ∨ lookup w.fs = none then
    (.ok true, { w with
      reserved := some p
      disturbances := if w.fs.tree p ≠ none ∧ w.fs.tree p ≠ some .directory then
          .occupied :: w.disturbances
        else w.disturbances })
  else (.ok false, w)

/-- `temporary_path`, with the attempts that are left. -/
def temporaryPath (output : Path) : Nat → WorldProg Path
  | 0 => require (bail "Unable to allocate a temporary output name")
  | attempts + 1 => do
    let random ← random 8
    let name := (output.getLast?.bind OsString.toStr).getD "vault.cfs"
    let candidate := output.dropLast ++ [.utf8 ("." ++ name ++ "." ++
      String.ofList (Text.hexEncode random.val) ++ ".tmp")]
    let free ← reserve candidate (·.follow 41 candidate)
    if free then return candidate else temporaryPath output attempts

/-- `Path::parent`. -/
def parent? (p : Path) : Option Path := if p = [] then none else some p.dropLast

/-- `validate_requested_temporary_path`. -/
def validateRequestedTemporaryPath (output requested : Path) : WorldProg Path := do
  require (rejectIf (parent? requested ≠ parent? output)
    "Temporary container must be a sibling of the final output")
  require (rejectIf (requested = output) "Temporary container must differ from the final output")
  require (rejectIf (requested = []) "Temporary container must name a file")
  let free ← reserve requested (·.tree requested)
  require (rejectIf (free = false) "Temporary container already exists")
  return requested

/-- `temp_path`. -/
def chooseTemporaryPath (req : PackRequest) : WorldProg Path :=
  match req.temporaryPath with
  | some path => validateRequestedTemporaryPath req.output path
  | none => temporaryPath req.output 32

/-- The destructor of `TempOutput`. A file of this run that stays disturbs it. -/
def dropTemp (temp : Path) : WorldProg Unit := do
  let _ ← attempted fun i w =>
    match w.fs.tree temp with
    | some (.file (.own _)) => Op.orDisturbed .notRemoved (Op.removeFile temp) i w
    | _ => Op.removeFile temp i w

/-! ## Encryption -/

/-- `ensure_unchanged`. -/
def ensureUnchanged (snapshot : SourceSnapshot) (file : FsNode) : WorldProg Unit := do
  let fingerprint ← perform (FileFingerprint.fromFile file)
  require (rejectIf (fingerprint ≠ snapshot.fingerprint)
    ("Source file changed while packing: " ++ Path.display snapshot.path))

/-- What the chunk tasks of one file share. -/
structure EncryptJob where
  snapshot : SourceSnapshot
  entry : Entry
  header : Header (ByteArr 48)
  dataStart : UInt64
  output : Nat
  progress : ProgressTracker

/-- The chunk task of `encrypt_source_file`. -/
def encryptStoredChunk (R : Reader Key) (job : EncryptJob) (file : FsNode) (key : Key)
    (chunkIndex : UInt64) : WorldProg Unit := do
  Prog.check
  let (plainOffset, expected) ← require (sourceSpan job.entry chunkIndex)
  let buffer ← (perform (Op.readExactAt file plainOffset expected)).context
    ("Unable to read " ++ Path.display job.snapshot.path ++ s!" chunk {chunkIndex}")
  let write ← require (encryptChunk R.crypto job.header key job.dataStart job.entry chunkIndex
    buffer)
  perform (Op.writeAllAt job.output write.2 (UInt64.ofNat write.1))
  job.progress.advance expected

/-- `encrypt_source_file`. -/
def encryptSourceFile (R : Reader Key) (dek : ByteArr 32) (job : EncryptJob) :
    WorldProg Unit := do
  let file ← (perform (Op.openFile job.snapshot.path)).context
    ("Unable to open " ++ Path.display job.snapshot.path)
  ensureUnchanged job.snapshot file
  let key ← require (deriveFileKey R.crypto dek job.header.containerId job.entry.fileId)
  Prog.parForEach job.entry.chunkIndices (encryptStoredChunk R job file key)
  ensureUnchanged job.snapshot file

/-- `entry_by_id`: the last entry of an id. -/
def entryById (entries : List Entry) (id : UInt64) : Option Entry :=
  entries.reverse.find? fun e => e.id = id

/-- The part of `pack_inner` that writes the header, the index and the chunks. -/
def writeContainer (R : Reader Key) (prepared : Prepared) (output : Nat) : WorldProg Unit := do
  let header := prepared.header
  let dataStart ← require (ofOption (checkedAdd (UInt64.ofNat headerSize) header.indexSize)
    "Container data offset overflow")
  let containerSize ← require (ofOption (checkedAdd dataStart header.dataSize)
    "Container size overflow")
  perform (Op.setLen output containerSize)
  let image ← require (serializeHeader header)
  perform (Op.writeAllAt output image 0)
  perform (Op.writeAllAt output prepared.encryptedIndex (UInt64.ofNat headerSize))
  let progress ← ProgressTracker.new .encrypt prepared.scan.totalPlaintext .frontend
  Prog.parForEach prepared.scan.sources fun (id, snapshot) => do
    Prog.check
    let entry ← require (ofOption (entryById prepared.scan.entries id)
      "Internal source entry mismatch")
    encryptSourceFile R prepared.dek ⟨snapshot, entry, header, dataStart, output, progress⟩
  perform Op.sync

/-- The self-verification of `pack_inner`. -/
def selfVerify (R : Reader Key) (req : PackRequest) (temp : Path) (total : UInt64) :
    WorldProg Unit := do
  Prog.event (.phaseStarted .keyDerivation)
  let opened ← (openStored R temp req.password).context
    "Self-verification could not reopen v2 container"
  Prog.check
  Prog.event (.phaseStarted .selfVerify)
  Prog.event (.progress ⟨.selfVerify, 0, total⟩)
  (verifyAllWithControl R opened selfVerifyReporter).context
    "Self-verification of packed container failed"

/-- The part of `pack_inner` from the new temporary file to the last check. -/
def stageContainer (R : Reader Key) (req : PackRequest) (prepared : Prepared) (temp : Path) :
    WorldProg Unit := do
  let output ← (perform (Op.createNew temp)).context "Unable to create temporary container"
  Prog.event (.temporaryArtifact .packContainer temp)
  writeContainer R prepared output
  Prog.check
  selfVerify R req temp prepared.scan.totalPlaintext
  Prog.check
  Prog.check

/-- `sync_parent`. -/
def syncParent (p : Path) : WorldProg Unit := do
  let _ ← perform (Op.openFile p)
  perform Op.sync

/-- The part of `pack_inner` after the last check. -/
def publishContainer (req : PackRequest) (temp : Path) : WorldProg Unit := do
  Prog.event (.phaseStarted .commit)
  Prog.event .commitStarted
  (perform (Op.renameNoReplace temp req.output)).context
    ("Unable to install " ++ Path.display req.output)
  let synced ← (syncParent req.output.dropLast).attempt
  match synced with
  | .ok () => pure ()
  | .error e => Prog.event (.warning ("Unable to sync output parent after commit: " ++ e.display))
  Prog.event .committed

/-- `pack_inner`. -/
def packInner (R : Reader Key) (walk : List (Result Path)) (req : PackRequest) :
    WorldProg Unit := do
  let prepared ← prepare R walk req
  let temp ← chooseTemporaryPath req
  Prog.onError (do
    stageContainer R req prepared temp
    publishContainer req temp) (dropTemp temp)

/-- `execute`, before `typed`. -/
def execute (R : Reader Key) (walk : List (Result Path)) (req : PackRequest) : WorldProg Unit :=
  installPool (packInner R walk req)

end CipherFS.Pack
