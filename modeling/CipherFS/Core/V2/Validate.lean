import CipherFS.Framework.Checked
import CipherFS.Core.V2.Names

/-!
# What a reader accepts — header and index validation

`validate_argon2`, `validate_header_basic`, `encrypted_file_size` and
`validate_index`, check by check in the source's order.
-/

namespace CipherFS.V2

open Result

variable {W : Type}

/-! ## Header -/

/-- `validate_argon2`. -/
def validateArgon2 (params : Argon2Params) : Result Unit :=
  rejectIf (¬(minArgonMemoryKib ≤ params.mCost ∧ params.mCost ≤ maxArgonMemoryKib) ∨
      ¬(1 ≤ params.tCost ∧ params.tCost ≤ maxArgonTime) ∨
      ¬(1 ≤ params.pCost ∧ params.pCost ≤ maxArgonLanes))
    s!"Argon2 parameters exceed local safety limits (m={params.mCost}, t={params.tCost}, p={params.pCost})"

/-- The length check of `validate_header_basic`. -/
def checkContainerLength (header : Header W) (fileLen : UInt64) : Result Unit := do
  let expected ← ofOption
    ((checkedAdd (UInt64.ofNat headerSize) header.indexSize).bind
      (checkedAdd · header.dataSize)) "Container length overflow"
  rejectIf (expected ≠ fileLen) "Container length does not match authenticated layout"

/-- `validate_header_basic`. `usize` has 64 bits. -/
def validateHeaderBasic (header : Header W) (fileLen : Option UInt64) : Result Unit := do
  rejectIf (header.magic ≠ magicBytes ∨ header.version ≠ version ∨
      header.headerSize.toNat ≠ headerSize ∨ header.chunkSize.toNat ≠ chunkSize.toNat)
    "Unsupported or invalid CipherFS v2 header"
  rejectIf (header.indexSize < tagSize ∨ header.indexSize > maxIndexSize)
    "Index size exceeds local safety limits"
  rejectIf (header.entryCount.toNat > maxEntries) "Entry count exceeds local safety limits"
  header.slots.forM fun slot =>
    if slot.generation > 0 then validateArgon2 slot.params else .ok ()
  (if header.duress.enabled then validateArgon2 header.duress.params else .ok ())
  match fileLen with
  | some fileLen => checkContainerLength header fileLen
  | none => .ok ()

/-! ## Index -/

/-- `encrypted_file_size`: the chunk count and the encrypted length of a file. -/
def encryptedFileSize (size : UInt64) : Result (UInt64 × UInt64) :=
  if size = 0 then .ok (0, 0)
  else do
    let padded ← ofOption (checkedAdd size (chunkSize - 1)) "File size overflow"
    let chunks := padded / chunkSize
    let overhead ← ofOption (checkedMul chunks tagSize) "Chunk overhead overflow"
    let encrypted ← ofOption (checkedAdd size overhead) "Encrypted file size overflow"
    .ok (chunks, encrypted)

example : encryptedFileSize 0 = .ok (0, 0) := by decide
example : encryptedFileSize (chunkSize - 1) = .ok (1, chunkSize - 1 + tagSize) := by decide
example : encryptedFileSize (chunkSize + 1) = .ok (2, chunkSize + 1 + tagSize * 2) := by decide

/-- The local variables of `validate_index` after some prefix of the entries. -/
structure IndexScan where
  ids : List UInt64
  fileIds : List (ByteArr 16)
  entries : HashMap UInt64 Entry
  children : HashMap UInt64 (List UInt64)
  files : List (UInt64 × UInt64 × UInt64)

def IndexScan.start : IndexScan := ⟨[], [], ∅, ∅, []⟩

/-- The root or name check of the first loop. -/
def checkRootOrName (os : Platform) (entry : Entry) : Result Unit :=
  if entry.id = 1 then
    rejectIf (entry.parentId ≠ 1 ∨ entry.depth ≠ 0 ∨ entry.kind ≠ .directory ∨
      ¬entry.name.isEmpty) "Invalid root entry"
  else validateName os entry.name

/-- The `match entry.kind` of the first loop. -/
def checkKind (scan : IndexScan) (entry : Entry) : Result IndexScan :=
  match entry.kind with
  | .directory => do
      rejectIf (entry.size ≠ 0 ∨ entry.dataOffset ≠ 0 ∨ entry.encryptedSize ≠ 0 ∨
        entry.chunkCount ≠ 0 ∨ entry.fileId ≠ ByteArr.zero 16)
        "Directory entry contains file data"
      .ok scan
  | .file => do
      rejectIf (entry.fileId = ByteArr.zero 16 ∨ entry.fileId ∈ scan.fileIds)
        "Invalid or duplicate file id"
      let sizes ← encryptedFileSize entry.size
      rejectIf (sizes.1 ≠ entry.chunkCount ∨ sizes.2 ≠ entry.encryptedSize)
        "File chunk layout mismatch"
      .ok { scan with
        fileIds := entry.fileId :: scan.fileIds
        files := scan.files ++ [(entry.dataOffset, entry.encryptedSize, entry.id)] }

/-- One iteration of the first loop of `validate_index`. -/
def scanEntry (os : Platform) (scan : IndexScan) (entry : Entry) : Result IndexScan := do
  rejectIf (entry.id = 0) "Entry id zero is reserved"
  rejectIf (entry.id ∈ scan.ids) s!"Duplicate entry id {entry.id}"
  rejectIf (entry.depth > maxDepth) "Directory depth exceeds local safety limits"
  checkRootOrName os entry
  let scan ← checkKind scan entry
  .ok { scan with
    ids := entry.id :: scan.ids
    children := if entry.id ≠ 1 then scan.children.push entry.parentId entry.id
      else scan.children
    entries := scan.entries.insert entry.id entry }

/-- One iteration of the second loop; `seen` holds the sibling names met so far. -/
def checkParent (entries : HashMap UInt64 Entry) (seen : List (UInt64 × String))
    (entry : Entry) : Result (List (UInt64 × String)) :=
  if entry.id = 1 then .ok seen
  else do
    let parent ← ofOption (entries.lookup entry.parentId) "Entry references a missing parent"
    rejectIf (parent.kind ≠ .directory ∨ checkedAdd32 parent.depth 1 ≠ some entry.depth)
      s!"Invalid parent or depth for entry {entry.id}"
    rejectIf ((entry.parentId, entry.name) ∈ seen) "Duplicate name within directory"
    .ok ((entry.parentId, entry.name) :: seen)

/-- One iteration of the layout loop. -/
def checkContiguous (expected : UInt64) (file : UInt64 × UInt64 × UInt64) : Result UInt64 := do
  rejectIf (file.1 ≠ expected) "File data must be contiguous and non-overlapping"
  ofOption (checkedAdd expected file.2.1) "Data layout overflow"

/-- `sort_by_key(|item| item.0)`: stable, by offset. -/
def sortByOffset (files : List (UInt64 × UInt64 × UInt64)) :
    List (UInt64 × UInt64 × UInt64) :=
  files.mergeSort fun a b => a.1 ≤ b.1

/-- `validate_index`. `ω` is the iteration order of the entry map. -/
def validateIndex (ω : IterOrder) (os : Platform) (header : Header W) (index : Index) :
    Result ValidatedIndex := do
  rejectIf (index.entries.length ≠ header.entryCount.toNat ∨
    index.entries.length > maxEntries) "Index entry count mismatch"
  let scan ← index.entries.foldlM (scanEntry os) .start
  let root ← ofOption (scan.entries.lookup 1) "Index has no root entry"
  rejectIf (root.kind ≠ .directory) "Root is not a directory"
  let _ ← (ω.arrange scan.entries.values).foldlM (checkParent scan.entries) []
  let expectedOffset ← (sortByOffset scan.files).foldlM checkContiguous 0
  rejectIf (expectedOffset ≠ header.dataSize) "Data size does not match index"
  .ok ⟨scan.entries, scan.children⟩

end CipherFS.V2
