import CipherFS.Core.SafeFs
import CipherFS.Core.V2.OpenFile
import CipherFS.Framework.Built

/-!
# Extraction

`extract_v2_inner`. The decryptions of one batch run in parallel; each leaves its
plaintext in the cell of its chunk, from which the writes of the batch take it in
order. On Windows the entries are extracted under their display names.
-/

namespace CipherFS.Extract

open Result WorldProg V2 ReadOnlyFs WindowsNames

variable {Key : Type}

/-- `ExtractRequest`. `batchSize` is `ordered_batch_size` in the pool of the
requested threads. -/
structure ExtractRequest where
  container : Path
  output : Path
  password : String
  batchSize : Nat
  stagingPath : Option Path

/-- The chunk ranges `batch_start..batch_end` of a file. -/
def batches (chunkCount batchSize : Nat) : List (List UInt64) :=
  (List.range ((chunkCount + batchSize - 1) / batchSize)).map fun b =>
    (List.range' (b * batchSize) (min batchSize (chunkCount - b * batchSize))).map UInt64.ofNat

/-- `sort_by_key(|entry| (entry.depth, entry.id))`. -/
def extractionOrder (ω : IterOrder) (index : ValidatedIndex) : List Entry :=
  (ω.arrange index.entries.values).mergeSort fun a b =>
    a.depth < b.depth ∨ a.depth = b.depth ∧ a.id ≤ b.id

/-- One decryption of a batch. -/
def decryptInto (R : Reader Key) (opened : OpenedFile) (entry : Entry) (chunkIndex : UInt64) :
    WorldProg Unit := do
  Prog.check
  let plaintext ← (perform (decryptStored R opened entry chunkIndex)).context
    s!"Entry {entry.id} chunk {chunkIndex} failed authentication"
  Prog.modify fun w => { w with chunks := Function.update w.chunks chunkIndex plaintext }

/-- One write of a batch. -/
def writeChunk (progress : ProgressTracker) (file : Nat) (chunkIndex : UInt64) :
    WorldProg Unit := do
  let plaintext ← Prog.read fun w => w.chunks chunkIndex
  perform (Op.writeAll file plaintext)
  progress.advance (UInt64.ofNat plaintext.length)

/-- One batch of a file. -/
def extractBatch (R : Reader Key) (opened : OpenedFile) (progress : ProgressTracker)
    (entry : Entry) (file : Nat) (batch : List UInt64) : WorldProg Unit := do
  Prog.check
  Prog.parForEach batch (decryptInto R opened entry)
  batch.forM (writeChunk progress file)

/-- The build for a platform; the Windows build has `windows_names`. -/
inductive Build where
  | unix
  | windows (names : WindowsNameMap (List UInt16))

def Build.os : Build → Platform
  | unix => .unix
  | windows _ => .windows

/-- `output_name`. -/
def Build.outputName (build : Build) (entry : Entry) : String :=
  match build with
  | unix => entry.name
  | windows names => names.nameFor entry.id entry.name

/-- The `File` case of the loop over the entries. -/
def extractFile (R : Reader Key) (build : Build) (opened : OpenedFile) (progress : ProgressTracker)
    (batchSize : Nat) (root : SafeRoot) (entry : Entry) : WorldProg PendingFile := do
  let pending ← root.beginFile build.os entry.parentId (build.outputName entry) entry.id
  (batches entry.chunkCount.toNat batchSize).forM
    (extractBatch R opened progress entry pending.file)
  PendingFile.finishWriting
  return pending

/-- One iteration of the loop over the entries. -/
def extractEntry (R : Reader Key) (build : Build) (opened : OpenedFile)
    (progress : ProgressTracker) (batchSize : Nat) (state : SafeRoot × List PendingFile) (entry : Entry) :
    WorldProg (SafeRoot × List PendingFile) := do
  Prog.check
  if entry.id = 1 then return state
  match entry.kind with
  | .directory => do
    let root ← state.1.createDirectory build.os entry.id entry.parentId (build.outputName entry)
    return (root, state.2)
  | .file => do
    let pending ← extractFile R build opened progress batchSize state.1 entry
    return (state.1, state.2 ++ [pending])

/-- The part of `extract_v2_inner` from the new tree to the last check. -/
def stageTree (R : Reader Key) (build : Build) (opened : OpenedFile) (progress : ProgressTracker)
    (batchSize : Nat) (root : SafeRoot) : WorldProg SafeRoot := do
  Prog.event (.temporaryArtifact .extractionTree root.staging)
  let root ← root.installRootId 1
  let state ← (extractionOrder R.order opened.index).foldlM
    (extractEntry R build opened progress batchSize) (root, [])
  Prog.check
  state.2.forM PendingFile.commit
  Prog.check
  return state.1

/-- The part of `extract_v2_inner` after the last check. -/
def publishTree (ω : IterOrder) (os : Platform) (root : SafeRoot) : WorldProg Unit := do
  Prog.event (.phaseStarted .commit)
  Prog.event .commitStarted
  let warning ← root.commit ω os
  match warning with
  | some text => Prog.event (.warning text)
  | none => pure ()
  Prog.event .committed

/-- The `windows_names` block. The map is found within that many attempts. -/
def windowsNames (R : Reader Key) (index : ValidatedIndex) :
    WorldProg (WindowsNameMap (List UInt16)) := do
  let nodes := (R.order.arrange index.entries.values).map Node.ofEntry
  let map := (WindowsNameMap.new R.tables.ordinal R.order (2 * maxEntries + 1) nodes).getD
    ⟨∅, ∅, []⟩
  map.changes.forM fun change => Prog.event (.warning
    ("Windows name mapping: " ++ R.debug change.1 ++ " -> " ++ R.debug change.2))
  if map.changes = [] then return map
  Prog.event (.warning
    (toString map.changes.length ++ " name(s) were mapped for Windows compatibility."))
  return map

/-- The build, with what it needs of the index. -/
def buildFor (R : Reader Key) (index : ValidatedIndex) : WorldProg Build :=
  match R.os with
  | .unix => return .unix
  | .windows => do
    let names ← windowsNames R index
    return .windows names

/-- Choosing the build only warns. -/
theorem yields_buildFor {D : Prog.Discipline World WorldInput Error}
    (hwarn : ∀ text, Prog.Built D (Prog.event (.warning text) : WorldProg Unit)) (R : Reader Key)
    (index : ValidatedIndex) : Prog.Yields D (fun build => build.os = R.os) (buildFor R index) := by
  unfold buildFor
  split
  · rename_i hos
    exact .pure hos.symm
  · rename_i hos
    have hnames : Prog.Built D (windowsNames R index) := by
      unfold windowsNames
      refine .bind (.forM fun _ _ => hwarn _) fun _ => ?_
      split
      · exact .pure _
      · exact (hwarn _).bind fun _ => .pure _
    exact .bind hnames fun names _ => .pure hos.symm

theorem buildFor_unix {R : Reader Key} (hos : R.os = .unix) (index : ValidatedIndex) :
    buildFor R index = pure .unix := by
  rw [buildFor, hos]

/-- The part of `extract_v2_inner` before the output is touched. -/
def openInput (R : Reader Key) (req : ExtractRequest) :
    WorldProg (OpenedFile × Build × ProgressTracker) := do
  Prog.check
  Prog.event (.phaseStarted .keyDerivation)
  let opened ← openStored R req.container req.password
  Prog.check
  let build ← buildFor R opened.index
  let total ← require (extractionTotal R.order opened.index)
  let progress ← ProgressTracker.new .extract total .frontend
  return (opened, build, progress)

/-- `extract_v2_inner`. -/
def extractV2Inner (R : Reader Key) (req : ExtractRequest) : WorldProg Unit := do
  let (opened, build, progress) ← openInput R req
  let root ← SafeRoot.choose req.output req.stagingPath R.os
  let root ← root.make
  Prog.onError (do
    let root ← stageTree R build opened progress req.batchSize root
    publishTree R.order R.os root) root.dropRoot

/-- `execute`, before `typed`. -/
def execute (R : Reader Key) (req : ExtractRequest) : WorldProg Unit :=
  installPool (extractV2Inner R req)

end CipherFS.Extract
