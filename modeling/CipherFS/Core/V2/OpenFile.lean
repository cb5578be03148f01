import CipherFS.Core.FileSystem
import CipherFS.Core.V2.HeaderCodec
import CipherFS.Core.V2.PasswordChange
import CipherFS.Core.WindowsNames.Ordinal

/-!
# Opening and verifying a container in the file system

`open`, `decrypt_chunk` and `verify_all_with_control` with every call of the
operating system as a step of its own. Between two steps the file is whatever
the file system holds.
-/

namespace CipherFS.V2

open Result WorldProg

variable {Key : Type}

/-- `rmp_serde` on the index. -/
structure IndexCodec where
  encode : Index → Option Bytes
  decode : Bytes → Option Index

/-- Decoding undoes encoding. -/
def IndexCodec.Lawful (K : IndexCodec) : Prop := ∀ {i b}, K.encode i = some b → K.decode b = some i

/-- What the reader is built from: the primitives, the index codec, the order of
hash maps, and the platform; on Windows also the case tables of the system, and
how `{:?}` shows a text. -/
structure Reader (Key : Type) where
  crypto : Crypto Key (ByteArr 48)
  codec : IndexCodec
  order : IterOrder
  os : Platform
  tables : WindowsNames.CaseTables
  debug : String → String

/-- `OpenedContainer`, with its file open. -/
structure OpenedFile where
  file : FsNode
  header : Header (ByteArr 48)
  index : ValidatedIndex
  dek : ByteArr 32
  dataStart : UInt64

/-- What is behind a handle. -/
def contentOf (fs : Fs) : FsNode → Bytes
  | .file ino => (fs.inodes ino).content
  | _ => []

/-- The container as it is in some file system. -/
def OpenedFile.inFs (opened : OpenedFile) (fs : Fs) : OpenedContainer (ByteArr 48) :=
  ⟨contentOf fs opened.file, opened.header, opened.index, opened.dek, opened.dataStart⟩

/-! ## Opening -/

/-- `read_header`. -/
def readHeaderFrom (file : FsNode) : WorldProg (Header (ByteArr 48)) := do
  let bytes ← (perform (Op.readExactAt file 0 (UInt64.ofNat headerSize))).context
    "Unable to read v2 header"
  let header ← (require (ofOption (Header.decode bytes) "invalid encoding")).context
    "Invalid v2 header encoding"
  let len ← perform (Op.fileLen file)
  require (validateHeaderBasic header.1 (some len))
  return header.1

/-- `write_all` of `write_header`, at the start of a file of somebody else. -/
def overwriteHeader (file : FsNode) (image : Bytes) : Op Unit := fun i w =>
  let written (data : Bytes) (ino : Ino) : World :=
    { w with
      fs := w.fs.setInode ino ⟨writeAt (w.fs.inodes ino).content 0 data, i.time⟩
      disturbances := .wiped :: w.disturbances }
  match i.fault, file with
  | none, .file ino => (.ok (), written image ino)
  | some text, .file ino => (ioError text, written (image.take i.written) ino)
  | _, _ => (ioError "Is a directory", w)

/-- The random bytes of one slot. -/
def slotRandom : WorldProg (SlotRandom (ByteArr 48)) := Prog.call fun i w =>
  (.ok ⟨fillBytes i 0 16, fillBytes i 16 12, fillBytes i 28 48⟩, w)

/-- `wipe_for_duress`. -/
def wipeStored (path : Path) (header : Header (ByteArr 48)) : WorldProg Unit := do
  let r₀ ← slotRandom
  let r₁ ← slotRandom
  let file ← perform (Op.openFile path)
  let image ← require (serializeHeader (wipedHeader header r₀ r₁))
  perform (overwriteHeader file image)
  perform Op.sync

/-- The `match` on the unlock result in `open`. -/
def storedDek (path : Path) (header : Header (ByteArr 48)) : UnlockResult → WorldProg (ByteArr 32)
  | .unlocked dek => pure dek
  | .duress => do
      wipeStored path header
      require (bail "Unable to unlock container (wrong password or damage)")
  | .failed => require (bail "Unable to unlock container (wrong password or damage)")

/-- The part of `open` that follows the unlocking. -/
def openIndex (R : Reader Key) (file : FsNode) (header : Header (ByteArr 48)) (dek : ByteArr 32) :
    WorldProg OpenedFile := do
  let encrypted ← perform (Op.readExactAt file (UInt64.ofNat headerSize) header.indexSize)
  let key ← require (deriveIndexKey R.crypto dek header.containerId)
  let serialized ← (require (decryptAead R.crypto key header.indexNonce
    (indexAad R.crypto header) encrypted)).context "Index authentication failed"
  let index ← (require (ofOption (R.codec.decode serialized) "invalid encoding")).context
    "Invalid v2 index encoding"
  let index ← require (validateIndex R.order R.os header index)
  let dataStart ← require (dataStartOf header)
  return ⟨file, header, index, dek, dataStart⟩

/-- `open`. -/
def openStored (R : Reader Key) (path : Path) (password : String) : WorldProg OpenedFile := do
  let file ← perform (Op.openFile path)
  let header ← readHeaderFrom file
  let found ← require (unlock R.crypto header password)
  let dek ← storedDek path header found
  openIndex R file header dek

/-! ## Chunks -/

/-- The file access of `decrypt_chunk`, with what surrounds it. -/
def decryptStored (R : Reader Key) (opened : OpenedFile) (entry : Entry) (chunkIndex : UInt64) :
    Op Bytes := fun i w =>
  match i.fault with
  | some text => (do let _ ← chunkSpan opened.dataStart entry chunkIndex; ioError text, w)
  | none => (decryptChunk R.crypto (opened.inFs w.fs) entry chunkIndex, w)

/-- `0..entry.chunk_count`. -/
def Entry.chunkIndices (entry : Entry) : List UInt64 :=
  (List.range entry.chunkCount.toNat).map UInt64.ofNat

/-- One chunk of `verify_all_with_control`. -/
def verifyChunk (R : Reader Key) (opened : OpenedFile) (progress : ProgressTracker)
    (entry : Entry) (chunkIndex : UInt64) : WorldProg Unit := do
  Prog.check
  let _ ← (perform (decryptStored R opened entry chunkIndex)).context
    s!"File entry {entry.id} chunk {chunkIndex} failed"
  let amount ← require (verifyAmount entry chunkIndex)
  progress.advance amount

/-- `verify_all_with_control`. -/
def verifyAllWithControl (R : Reader Key) (opened : OpenedFile) (reporter : Reporter) :
    WorldProg Unit := do
  let total ← require (verifyTotal R.order opened.index)
  let progress ← ProgressTracker.new .verify total reporter
  Prog.parForEach (verifyFiles R.order opened.index) fun entry =>
    Prog.parForEach entry.chunkIndices fun chunkIndex =>
      verifyChunk R opened progress entry chunkIndex

/-- `crate::parallel::install`: the pool is built before the operation runs. -/
def installPool (operation : WorldProg Unit) : WorldProg Unit := do
  (perform Op.sync).context "Unable to create worker thread pool"
  operation

/-- `verify_inner`, on the file system. -/
def verifyStored (R : Reader Key) (path : Path) (password : String) : WorldProg Unit := do
  Prog.check
  Prog.event (.phaseStarted .keyDerivation)
  let opened ← openStored R path password
  Prog.check
  installPool (verifyAllWithControl R opened .frontend)

end CipherFS.V2
