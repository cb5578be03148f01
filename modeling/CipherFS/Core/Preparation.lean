import CipherFS.Core.Confined
import CipherFS.Core.Extract
import CipherFS.Core.Pack.Run

/-!
# What `pack` and `extract` do before their commit

Every program up to the last check is confined: opening a container and the scan
to no path at all, the extraction to the paths below its staging directory, and
the packing, once the temporary file is made, to no path again.
-/

namespace CipherFS

open WorldProg Prog V2

variable {Key : Type} {T : Path → Prop}

/-! ## Containers -/

theorem moves_overwriteHeader (file : FsNode) (image : Bytes) (i : WorldInput) (w : World) :
    Moves T w (overwriteHeader file image i w).2 := by
  have hwritten : ∀ fs : Fs, fs.tree = w.fs.tree →
      Moves T w { w with fs := fs, disturbances := .wiped :: w.disturbances } := fun fs hfs =>
    { Moves.refl w with
      tree := fun q _ => congrFun hfs q
      directories := fun p hp => (congrFun hfs p).trans hp
      foreign := fun hw => absurd List.mem_cons_self hw
      disturbances := List.subset_cons_self _ _ }
  unfold overwriteHeader
  dsimp only
  split
  · exact hwritten _ rfl
  · exact hwritten _ rfl
  · exact .refl w

theorem moves_decryptStored {R : Reader Key} {opened : OpenedFile} {e : Entry} {k : UInt64}
    (i : WorldInput) (w : World) : Moves T w (decryptStored R opened e k i w).2 := by
  unfold decryptStored
  split <;> exact .refl w

theorem built_openFile (p : Path) : Built (confined T) (perform (Op.openFile p)) :=
  built_perform moves_reading

theorem built_sync : Built (confined T) (perform Op.sync) := built_perform moves_reading

theorem built_readHeaderFrom (file : FsNode) : Built (confined T) (readHeaderFrom file) := by
  unfold readHeaderFrom
  refine (built_context (built_perform moves_reading)).bind fun bytes => ?_
  refine (built_context (built_require _)).bind fun header => ?_
  exact (built_perform moves_reading).bind fun len => (built_require _).bind fun _ => .pure _

theorem built_slotRandom : Built (confined T) slotRandom :=
  built_call (fun _ w => .refl w) fun _ _ _ he => nomatch he

theorem built_wipeStored (path : Path) (header : Header (ByteArr 48)) :
    Built (confined T) (wipeStored path header) := by
  unfold wipeStored
  refine built_slotRandom.bind fun r₀ => built_slotRandom.bind fun r₁ => ?_
  refine (built_openFile path).bind fun file => (built_require _).bind fun image => ?_
  exact (built_perform (moves_overwriteHeader file image)).bind fun _ => built_sync

theorem built_storedDek (path : Path) (header : Header (ByteArr 48)) (found : UnlockResult) :
    Built (confined T) (storedDek path header found) := by
  cases found with
  | unlocked dek => exact .pure dek
  | duress => exact (built_wipeStored path header).bind fun _ => built_require _
  | failed => exact built_require (Result.bail _)

theorem built_openIndex (R : Reader Key) (file : FsNode) (header : Header (ByteArr 48))
    (dek : ByteArr 32) : Built (confined T) (openIndex R file header dek) := by
  unfold openIndex
  refine (built_perform moves_reading).bind fun encrypted => (built_require _).bind fun key => ?_
  refine (built_context (built_require _)).bind fun serialized => ?_
  refine (built_context (built_require _)).bind fun index => (built_require _).bind fun index' => ?_
  exact (built_require _).bind fun dataStart => .pure _

theorem built_openStored (R : Reader Key) (path : Path) (password : String) :
    Built (confined T) (openStored R path password) := by
  unfold openStored
  refine (built_openFile path).bind fun file => (built_readHeaderFrom file).bind fun header => ?_
  refine (built_require _).bind fun found => (built_storedDek path header found).bind fun dek => ?_
  exact built_openIndex R file header dek

theorem built_verifyChunk (R : Reader Key) (opened : OpenedFile) {t : ProgressTracker}
    (ht : t.reporter.Plain) (e : Entry) (k : UInt64) :
    Built (confined T) (verifyChunk R opened t e k) := by
  unfold verifyChunk
  refine built_check.bind fun _ => (built_context (built_perform moves_decryptStored)).bind
    fun _ => ?_
  exact (built_require _).bind fun amount => built_advance ht amount

theorem built_verifyAll (R : Reader Key) (opened : OpenedFile) {reporter : Reporter}
    (hr : reporter.Plain) : Built (confined T) (verifyAllWithControl R opened reporter) := by
  unfold verifyAllWithControl
  refine (built_require _).bind fun total => yields_newTracker hr ?_
  exact .parForEach fun e _ => .parForEach fun k _ => built_verifyChunk R opened hr e k

/-! ## Extraction -/

open Extract in
theorem yields_openInput (R : Reader Key) (req : ExtractRequest) :
    Yields (confined T) (fun input => input.2.2.reporter.Plain) (openInput R req) := by
  unfold openInput
  refine .bind built_check fun _ _ => .bind (built_event (e := .phaseStarted _) rfl) fun _ _ => ?_
  refine .bind (built_openStored R _ _) fun opened _ => .bind built_check fun _ _ => ?_
  refine .bind (yields_buildFor (fun _ => built_event rfl) R opened.index) fun build _ => ?_
  refine .bind (built_require _) fun total _ => yields_newTracker Reporter.plain_frontend ?_
  exact .pure Reporter.plain_frontend

theorem built_openVerifiedDirectory (p : Path) (os : Platform) :
    Built (confined T) (openVerifiedDirectory p os) := by
  cases os with
  | unix => exact (built_perform moves_reading).bind fun _ =>
      built_context (.forM fun k _ => built_perform moves_reading)
  | windows =>
      refine .forM fun k _ => (built_context (built_perform moves_reading)).bind fun node => ?_
      exact built_sync.bind fun _ => built_require _

theorem built_allocateStagingName (parent : Path) (name : OsString) :
    ∀ n, Built (confined T) (allocateStagingName parent name n)
  | 0 => built_require _
  | n + 1 => by
      unfold allocateStagingName
      refine (built_random 8).bind fun r => (built_attempted moves_reading).bind fun found => ?_
      split
      · exact built_allocateStagingName parent name n
      · exact .pure _

theorem built_requestedStagingName (target requested : Path) :
    Built (confined T) (requestedStagingName target requested) := by
  unfold requestedStagingName
  refine (built_require _).bind fun _ => (built_require _).bind fun _ => ?_
  refine (built_require _).bind fun name => (built_attempted moves_reading).bind fun found => ?_
  exact (built_require _).bind fun _ => .pure _

theorem built_chooseStagingName (target : Path) (name : OsString) (requested : Option Path) :
    Built (confined T) (chooseStagingName target name requested) := by
  cases requested with
  | some requested => exact built_requestedStagingName target requested
  | none => exact built_allocateStagingName _ _ 32

theorem built_choose (target : Path) (requested : Option Path) (os : Platform) :
    Built (confined T) (SafeRoot.choose target requested os) := by
  unfold SafeRoot.choose
  refine (built_attempted moves_reading).bind fun found => (built_require _).bind fun _ => ?_
  refine (built_require _).bind fun name => ?_
  refine (built_context (built_openVerifiedDirectory _ os)).bind fun _ => ?_
  refine (built_attempted moves_reading).bind fun found => (built_require _).bind fun _ => ?_
  exact (built_chooseStagingName target name requested).bind fun _ => .pure _

theorem built_syncDirectory (p : Path) (os : Platform) :
    Built (confined T) (syncDirectory p os) := by
  cases os with
  | unix => exact (built_perform moves_reading).bind fun _ => built_sync
  | windows => exact .pure _

/-- The paths of an extraction before its commit. -/
def SafeRoot.Below (root : SafeRoot) (p : Path) : Prop := root.staging <+: p

/-- Two handles on one tree, at different stages. -/
def SafeRoot.Same (root root' : SafeRoot) : Prop :=
  root'.staging = root.staging ∧ root'.target = root.target

theorem SafeRoot.Same.trans {root root' root'' : SafeRoot} (h : root.Same root')
    (h' : root'.Same root'') : root.Same root'' := ⟨h'.1.trans h.1, h'.2.trans h.2⟩

theorem SafeRoot.below_append (root : SafeRoot) (p : Path) : root.Below (root.staging ++ p) :=
  List.prefix_append _ _

namespace Extract

variable {root : SafeRoot} {R : Reader Key} {build : Build} {opened : OpenedFile}
  {t : ProgressTracker}

/-- Once the staging directory is there, opening it touches no path. -/
theorem yields_openStaging : Yields (confined T) root.Same (do
    (perform (Op.orDisturbed .notOpened (Op.openDirectory root.staging))).context
      "Unable to open extraction staging directory"
    return { root with directories := root.directories.insert 1 [] } : WorldProg SafeRoot) :=
  .bind (built_context (built_perform (moves_orDisturbed moves_reading))) fun _ _ =>
    .pure ⟨rfl, rfl⟩

theorem built_extractBatch (ht : t.reporter.Plain) (e : Entry) (file : Nat) (batch : List UInt64) :
    Built (confined T) (extractBatch R opened t e file batch) := by
  unfold extractBatch
  refine built_check.bind fun _ => .bind (.parForEach fun k _ => ?_) fun _ => .forM fun k _ => ?_
  · unfold decryptInto
    refine built_check.bind fun _ => ?_
    refine (built_context (built_perform moves_decryptStored)).bind fun plaintext => ?_
    exact built_modify fun w => { Moves.refl w with }
  · unfold writeChunk
    refine built_read.bind fun plaintext => (built_perform moves_writeAll).bind fun _ => ?_
    exact built_advance ht _

theorem yields_createDirectory (os : Platform) (id parentId : UInt64) (name : String) :
    Yields (confined root.Below) root.Same (root.createDirectory os id parentId name) := by
  unfold SafeRoot.createDirectory
  refine .bind (built_require _) fun _ _ => .bind (built_require _) fun parent _ => ?_
  refine .bind (built_context (built_perform (moves_createDir (root.below_append _)))) fun _ _ => ?_
  refine .bind (built_perform moves_reading) fun node _ => .bind (built_require _) fun _ _ => ?_
  exact .bind (built_context (built_perform moves_reading)) fun _ _ => .pure ⟨rfl, rfl⟩

/-- The file lies below the staging directory, under both its names. -/
def Staged (root : SafeRoot) (pending : PendingFile) : Prop :=
  root.Below pending.temp ∧ root.Below pending.final

theorem yields_beginFile (os : Platform) (parentId entryId : UInt64) (name : String) :
    Yields (confined root.Below) (Staged root) (root.beginFile os parentId name entryId) := by
  have hbelow : ∀ parent : Path, ∀ a : OsString, root.Below (root.staging ++ (parent ++ [a])) :=
    fun parent a => root.below_append (parent ++ [a])
  unfold SafeRoot.beginFile
  refine .bind (built_require _) fun _ _ => .bind (built_require _) fun parent _ => ?_
  refine .bind (built_attempted moves_reading) fun found _ => .bind (built_require _) fun _ _ => ?_
  refine .bind (built_random 8) fun r _ => ?_
  refine .bind (built_context (built_perform (moves_createNew (hbelow parent _)))) fun n _ => ?_
  refine .bind built_sync fun _ _ => .bind (built_modify fun w => ?_) fun _ _ => .pure ?_
  · refine { Moves.refl w with guards := fun p hp => ?_ }
    rcases List.mem_append.mp hp with hp | hp
    · exact .inl hp
    · rw [List.mem_singleton.mp hp]
      exact .inr (hbelow parent _)
  · constructor
    · show root.Below ((root.staging ++ parent) ++ [_])
      rw [List.append_assoc]
      exact hbelow parent _
    · show root.Below ((root.staging ++ parent) ++ [_])
      rw [List.append_assoc]
      exact hbelow parent _

/-- A tree and pending files that lie below one staging directory. -/
def Within (root : SafeRoot) (state : SafeRoot × List PendingFile) : Prop :=
  root.Same state.1 ∧ ∀ pending ∈ state.2, Staged root pending

theorem yields_extractEntry (ht : t.reporter.Plain) {batchSize : Nat}
    {state : SafeRoot × List PendingFile} (hstate : Within root state) (e : Entry) :
    Yields (confined root.Below) (Within root) (extractEntry R build opened t batchSize state e) := by
  obtain ⟨root', pending⟩ := state
  obtain ⟨hroot, hpending⟩ := hstate
  have hbelow : root'.Below = root.Below := by
    ext1 p
    rw [SafeRoot.Below, SafeRoot.Below, hroot.1]
  unfold extractEntry
  refine .bind built_check fun _ _ => ?_
  split
  · exact .pure ⟨hroot, hpending⟩
  · split
    · have hdir : Yields (confined root'.Below) root'.Same
          (root'.createDirectory build.os e.id e.parentId (build.outputName e)) :=
        yields_createDirectory _ _ _ _
      rw [hbelow] at hdir
      exact hdir.bind fun root'' hroot'' => .pure ⟨hroot.trans hroot'', hpending⟩
    · have hfile : Yields (confined root'.Below) (Staged root')
          (root'.beginFile build.os e.parentId (build.outputName e) e.id) :=
        yields_beginFile _ _ _ _
      rw [hbelow] at hfile
      have hstaged : Yields (confined root.Below) (Staged root)
          (extractFile R build opened t batchSize root' e) := by
        unfold extractFile
        refine hfile.bind fun p hp => ?_
        refine .bind (Built.forM fun batch _ => built_extractBatch ht e p.file batch) fun _ _ => ?_
        refine .bind (built_sync.bind fun _ => built_sync) fun _ _ => .pure ?_
        rwa [Staged, hbelow] at hp
      refine hstaged.bind fun p hp => .pure ⟨hroot, fun q hq => ?_⟩
      rcases List.mem_append.mp hq with hq | hq
      · exact hpending q hq
      · rw [List.mem_singleton.mp hq]
        exact hp

theorem built_commitFile {pending : PendingFile} (hp : Staged root pending) :
    Built (confined root.Below) pending.commit := by
  unfold PendingFile.commit
  refine (built_context (built_perform (moves_rename hp.1 hp.2))).bind fun _ => ?_
  exact built_modify fun w => { Moves.refl w with
    guards := fun p hp => .inl (List.mem_of_mem_erase hp) }

/-- **The extraction stays below its staging directory until it commits.** -/
theorem yields_stageTree (ht : t.reporter.Plain) {batchSize : Nat} :
    Yields (confined root.Below) root.Same (stageTree R build opened t batchSize root) := by
  unfold stageTree
  refine .bind (built_event (e := .temporaryArtifact _ _) rfl) fun _ _ => ?_
  have hinstall : Yields (confined root.Below) root.Same (root.installRootId 1) := by
    unfold SafeRoot.installRootId
    exact .bind (built_require _) fun _ _ => .bind built_sync fun _ _ => .pure ⟨rfl, rfl⟩
  refine hinstall.bind fun root' hroot' => ?_
  have hloop : Yields (confined root.Below) (Within root)
      ((extractionOrder R.order opened.index).foldlM (extractEntry R build opened t batchSize)
        (root', [])) :=
    .foldlM (fun _ hstate e _ => yields_extractEntry ht hstate e) ⟨hroot', nofun⟩
  refine hloop.bind fun state hstate => .bind built_check fun _ _ => ?_
  refine .bind (Built.forM fun p hp => built_commitFile (hstate.2 p hp)) fun _ _ => ?_
  exact .bind built_check fun _ _ => .pure hstate.1

end Extract

/-! ## Packing -/

namespace Pack

variable {R : Reader Key} {t : ProgressTracker}

theorem built_inspectRequest (req : PackRequest) : Built (confined T) (inspectRequest req) := by
  unfold inspectRequest
  refine built_check.bind fun _ => (built_context (built_perform moves_reading)).bind fun _ => ?_
  exact (built_require _).bind fun _ => (built_require _).bind fun _ => built_check

/-- The file id that is drawn is new. -/
theorem yields_drawFileId (used : List (ByteArr 16)) :
    Yields (confined T) (fun id => id ≠ ByteArr.zero 16 ∧ id ∉ used) (drawFileId used) := by
  refine .draw (fun i w r w' hf => ?_) fun i w id w' hf => ?_
  · dsimp only at hf
    split at hf
    · obtain ⟨rfl, rfl⟩ := Prod.mk.inj (Option.some.inj hf)
      exact ⟨.refl w, nofun⟩
    · cases hf
  · dsimp only at hf
    split at hf
    · rename_i hid
      obtain ⟨heq, -⟩ := Prod.mk.inj (Option.some.inj hf)
      rw [← Except.ok.inj heq]
      exact hid
    · cases hf

theorem built_fromFile (file : FsNode) :
    Built (confined T) (perform (FileFingerprint.fromFile file)) := built_perform moves_reading

theorem built_scanFile (scan : Scan) (place : Place) (id : UInt64) (path : Path) :
    Built (confined T) (scanFile scan place id path) := by
  unfold scanFile
  refine (built_openFile path).bind fun file => (built_perform moves_reading).bind fun size => ?_
  refine (yields_drawFileId _).built.bind fun fileId => (built_require _).bind fun sizes => ?_
  refine (built_fromFile file).bind fun fingerprint => (built_require _).bind fun total => ?_
  exact (built_require _).bind fun offset => .pure _

theorem built_scanItem (os : Platform) (sourceDir : Path) (scan : Scan) (item : Result Path) :
    Built (confined T) (scanItem os sourceDir scan item) := by
  unfold scanItem
  refine built_check.bind fun _ => (built_require _).bind fun path => ?_
  split
  · exact .pure _
  · refine (built_require _).bind fun place => (built_perform moves_reading).bind fun node => ?_
    refine (built_require _).bind fun nextId => ?_
    cases node with
    | symlink _ => exact built_require _
    | directory => exact .pure _
    | file _ => exact built_scanFile _ place scan.nextId path
    | special => exact built_require _

theorem built_scanSource (os : Platform) (walk : List (Result Path)) (sourceDir : Path) :
    Built (confined T) (scanSource os walk sourceDir) :=
  .foldlM (fun scan _ item _ => built_scanItem os sourceDir scan item) trivial

theorem built_makeHeader (R : Reader Key) (req : PackRequest) (indexSize : UInt64) (scan : Scan) :
    Built (confined T) (makeHeader R req indexSize scan) := by
  have hrandom : Built (confined T) headerRandom :=
    built_call (fun _ w => .refl w) fun _ _ _ he => nomatch he
  unfold makeHeader
  refine hrandom.bind fun r => (built_event (e := .phaseStarted _) rfl).bind fun _ => ?_
  refine (built_require _).bind fun header => built_check.bind fun _ => ?_
  exact (built_require _).bind fun slot => built_check.bind fun _ => .pure _

/-- The scan and the header touch no path. -/
theorem built_prepare (R : Reader Key) (walk : List (Result Path)) (req : PackRequest) :
    Built (confined T) (prepare R walk req) := by
  unfold prepare
  refine (built_inspectRequest req).bind fun _ => ?_
  refine (built_event (e := .phaseStarted _) rfl).bind fun _ => ?_
  refine (built_event (e := .progress _) rfl).bind fun _ => ?_
  refine (built_scanSource R.os walk req.source).bind fun scan => ?_
  refine (built_event (e := .scanCompleted _ _) rfl).bind fun _ => ?_
  have hindex : Built (confined T) (serializeIndex R req scan.entries) := by
    unfold serializeIndex
    refine (built_require _).bind fun serialized => (built_require _).bind fun size => ?_
    exact (built_require _).bind fun _ => .pure _
  refine hindex.bind fun index => (built_makeHeader R req index.2 scan).bind fun made => ?_
  refine (built_require _).bind fun key => (built_require _).bind fun encrypted => ?_
  exact (built_require _).bind fun _ => .pure _

theorem built_reserve (p : Path) (lookup : Fs → Option FsNode) :
    Built (confined T) (reserve p lookup) := by
  refine built_call (fun i w => ?_) fun i w e he => ?_
  · split
    · refine { Moves.refl w with foreign := fun _ _ => rfl, disturbances := ?_ }
      dsimp only
      split
      · exact List.subset_cons_self _ _
      · exact List.Subset.refl _
    · exact .refl w
  · split at he
    · cases he
    · cases he

theorem built_temporaryPath (output : Path) :
    ∀ n, Built (confined T) (temporaryPath output n)
  | 0 => built_require _
  | n + 1 => by
      unfold temporaryPath
      refine (built_random 8).bind fun r => (built_reserve _ _).bind fun free => ?_
      split
      · exact .pure _
      · exact built_temporaryPath output n

theorem built_chooseTemporaryPath (req : PackRequest) :
    Built (confined T) (chooseTemporaryPath req) := by
  unfold chooseTemporaryPath
  split
  · refine (built_require _).bind fun _ => (built_require _).bind fun _ => ?_
    refine (built_require _).bind fun _ => (built_reserve _ _).bind fun free => ?_
    exact (built_require _).bind fun _ => .pure _
  · exact built_temporaryPath _ _

theorem built_ensureUnchanged (snapshot : SourceSnapshot) (file : FsNode) :
    Built (confined T) (ensureUnchanged snapshot file) :=
  (built_fromFile file).bind fun _ => built_require _

theorem built_encryptSourceFile (dek : ByteArr 32) {job : EncryptJob}
    (ht : job.progress.reporter.Plain) : Built (confined T) (encryptSourceFile R dek job) := by
  unfold encryptSourceFile
  refine (built_context (built_openFile _)).bind fun file => ?_
  refine (built_ensureUnchanged _ file).bind fun _ => (built_require _).bind fun key => ?_
  refine .bind (.parForEach fun k _ => ?_) fun _ => built_ensureUnchanged _ file
  unfold encryptStoredChunk
  refine built_check.bind fun _ => (built_require _).bind fun span => ?_
  refine (built_context (built_perform moves_reading)).bind fun buffer => ?_
  refine (built_require _).bind fun write => (built_perform moves_writeAllAt).bind fun _ => ?_
  exact built_advance ht _

theorem built_writeContainer (prepared : Prepared) (output : Nat) :
    Built (confined T) (writeContainer R prepared output) := by
  unfold writeContainer
  refine (built_require _).bind fun dataStart => (built_require _).bind fun size => ?_
  refine (built_perform moves_setLen).bind fun _ => (built_require _).bind fun image => ?_
  refine (built_perform moves_writeAllAt).bind fun _ => ?_
  refine (built_perform moves_writeAllAt).bind fun _ => ?_
  refine yields_newTracker Reporter.plain_frontend ?_
  refine .bind (.parForEach fun source _ => ?_) fun _ _ => built_sync
  refine built_check.bind fun _ => (built_require _).bind fun entry => ?_
  exact built_encryptSourceFile prepared.dek Reporter.plain_frontend

theorem selfVerifyReporter_plain : selfVerifyReporter.Plain := by
  intro e _ e' h
  cases e with
  | progress p => exact Option.some.inj h ▸ rfl
  | _ => cases h

theorem built_selfVerify (req : PackRequest) (temp : Path) (total : UInt64) :
    Built (confined T) (selfVerify R req temp total) := by
  unfold selfVerify
  refine (built_event (e := .phaseStarted _) rfl).bind fun _ => ?_
  refine (built_context (built_openStored R temp _)).bind fun opened => built_check.bind fun _ => ?_
  refine (built_event (e := .phaseStarted _) rfl).bind fun _ => ?_
  refine (built_event (e := .progress _) rfl).bind fun _ => ?_
  exact built_context (built_verifyAll R opened selfVerifyReporter_plain)

/-- Once the temporary file is there, filling and verifying it touches no path. -/
theorem built_fillContainer (req : PackRequest) (prepared : Prepared) (temp : Path)
    (output : Nat) : Built (confined T) (do
      Prog.event (.temporaryArtifact .packContainer temp)
      writeContainer R prepared output
      Prog.check
      selfVerify R req temp prepared.scan.totalPlaintext
      Prog.check
      Prog.check : WorldProg Unit) := by
  refine (built_event (e := .temporaryArtifact _ _) rfl).bind fun _ => ?_
  refine (built_writeContainer prepared output).bind fun _ => built_check.bind fun _ => ?_
  exact (built_selfVerify req temp _).bind fun _ => built_check.bind fun _ => built_check

end Pack

end CipherFS
