import CipherFS.Core.V2.Crypto
import CipherFS.Core.V2.Validate
import CipherFS.Framework.FileBytes

/-!
# Chunks — where they lie and how they are sealed

The reader's side (`decrypt_chunk`, `verify_all_with_control`, the extraction
total) and the writer's side (`encrypt_source_file`) compute positions
separately; both are kept as the source has them, with the arithmetic apart
from the file access.
-/

namespace CipherFS.V2

open Result

variable {Key W : Type} (C : Crypto Key W)

/-- `file.read_exact_at`. -/
def readExactAt (file : Bytes) (pos len : UInt64) : Result Bytes :=
  match readAt file pos.toNat len.toNat with
  | some data => .ok data
  | none => ioError "failed to fill whole buffer"

@[simp] theorem readExactAt_eq_ok {file data : Bytes} {pos len : UInt64} :
    readExactAt file pos len = .ok data ↔ readAt file pos.toNat len.toNat = some data := by
  unfold readExactAt
  split <;> simp_all [ioError]

/-- `OpenedContainer`. `file` is the content of the container file. -/
structure OpenedContainer (W : Type) where
  file : Bytes
  header : Header W
  index : ValidatedIndex
  dek : ByteArr 32
  dataStart : UInt64

/-- `data_start` as `open` computes it. -/
def dataStartOf (header : Header W) : Result UInt64 :=
  ofOption (checkedAdd (UInt64.ofNat headerSize) header.indexSize) "Data offset overflow"

/-! ## Reading -/

/-- The local variables of `decrypt_chunk` before it touches the file. -/
structure ChunkSpan where
  plainLen : UInt64
  cipherLen : UInt64
  position : UInt64
deriving DecidableEq, Repr

/-- The arithmetic of `decrypt_chunk`. -/
def chunkSpan (dataStart : UInt64) (entry : Entry) (chunkIndex : UInt64) :
    Result ChunkSpan := do
  rejectIf (entry.kind ≠ .file ∨ chunkIndex ≥ entry.chunkCount) "Invalid chunk request"
  let plainStart ← ofOption (checkedMul chunkIndex chunkSize) "Chunk offset overflow"
  let remaining ← ofSub (checkedSub entry.size plainStart)
  let plainLen := min chunkSize remaining
  let cipherLen ← ofOption (checkedAdd plainLen tagSize) "Ciphertext length overflow"
  let relative ← ofOption (checkedMul chunkIndex (chunkSize + tagSize)) "Chunk position overflow"
  let position ← ofOption ((checkedAdd dataStart entry.dataOffset).bind (checkedAdd · relative))
    "Chunk file position overflow"
  .ok ⟨plainLen, cipherLen, position⟩

/-- `decrypt_chunk`. -/
def decryptChunk (opened : OpenedContainer W) (entry : Entry) (chunkIndex : UInt64) :
    Result Bytes := do
  let span ← chunkSpan opened.dataStart entry chunkIndex
  let encrypted ← readExactAt opened.file span.position span.cipherLen
  let key ← deriveFileKey C opened.dek opened.header.containerId entry.fileId
  let plaintext ← decryptAead C key (chunkNonce chunkIndex)
    (chunkAad opened.header entry chunkIndex span.plainLen) encrypted
  rejectIf (plaintext.length ≠ span.plainLen.toNat) "Chunk plaintext length mismatch"
  .ok plaintext

/-- The file entries as `verify_all_with_control` collects and sorts them. -/
def verifyFiles (ω : IterOrder) (index : ValidatedIndex) : List Entry :=
  ((ω.arrange index.entries.values).filter (·.kind = .file)).mergeSort
    fun a b => a.dataOffset ≤ b.dataOffset

/-- `total` of `verify_all_with_control`. -/
def verifyTotal (ω : IterOrder) (index : ValidatedIndex) : Result UInt64 :=
  ofOption (checkedSum ((verifyFiles ω index).map Entry.size)) "Total verification size overflow"

/-- `amount` of `verify_all_with_control`. -/
def verifyAmount (entry : Entry) (chunkIndex : UInt64) : Result UInt64 := do
  let plainOffset ← ofOption (checkedMul chunkIndex chunkSize)
    "Verification chunk offset overflow"
  let remaining ← ofSub (checkedSub entry.size plainOffset)
  .ok (min chunkSize remaining)

/-- `total` of `extract_v2_inner`. -/
def extractionTotal (ω : IterOrder) (index : ValidatedIndex) : Result UInt64 :=
  ofOption (checkedSum (((ω.arrange index.entries.values).filter (·.kind = .file)).map Entry.size))
    "Total extraction size overflow"

/-! ## Writing -/

/-- `plain_offset` and `expected` of `encrypt_source_file`. -/
def sourceSpan (entry : Entry) (chunkIndex : UInt64) : Result (UInt64 × UInt64) := do
  let plainOffset ← ofOption (checkedMul chunkIndex chunkSize) "Source chunk offset overflow"
  let remaining ← ofSub (checkedSub entry.size plainOffset)
  .ok (plainOffset, min chunkSize remaining)

/-- `destination` of `encrypt_source_file`. -/
def chunkDestination (dataStart : UInt64) (entry : Entry) (chunkIndex : UInt64) :
    Result UInt64 := do
  let relative ← ofOption (checkedMul chunkIndex (chunkSize + tagSize))
    "Encrypted chunk offset overflow"
  ofOption ((checkedAdd dataStart entry.dataOffset).bind (checkedAdd · relative))
    "Encrypted chunk position overflow"

/-- The part of the chunk task of `encrypt_source_file` that follows the read of
`buffer`: the write it makes. -/
def encryptChunk (header : Header W) (key : Key) (dataStart : UInt64) (entry : Entry)
    (chunkIndex : UInt64) (buffer : Bytes) : Result FileWrite := do
  let encrypted ← encryptAead C key (chunkNonce chunkIndex)
    (chunkAad header entry chunkIndex (UInt64.ofNat buffer.length)) buffer
  let destination ← chunkDestination dataStart entry chunkIndex
  .ok (destination.toNat, encrypted)

end CipherFS.V2
