import CipherFS.Core.Extract.Operations
import CipherFS.Core.Observing

/-!
# Extraction leaves the files of others

What an extraction makes is its own: no step of it, after the container is open,
changes a file that somebody else has made, nor what is on record about it.
-/

namespace CipherFS

open WorldProg Prog V2

variable {α Key : Type} {w w' : World}

namespace Leaves

theorem refl (w : World) : Leaves w w := ⟨fun _ => rfl, rfl, rfl, rfl⟩

theorem logged (h : Leaves w w') (fs : List Error) : Leaves w { w' with failures := fs } :=
  ⟨h.inodes, h.versions, h.next, h.others⟩

/-- A change of the tree. -/
theorem names (w : World) (t : FileTree OsString FsNode) :
    Leaves w { w with fs := { w.fs with tree := t } } := ⟨fun _ => rfl, rfl, rfl, rfl⟩

/-- A change of a file of the run. -/
theorem own_file {n : Nat} {inode : Inode}
    (h : w'.fs.inodes = Function.update w.fs.inodes (.own n) inode)
    (hversions : w'.versions = w.versions) (hnext : w'.nextOther = w.nextOther)
    (hothers : w'.others = w.others) : Leaves w w' := by
  refine ⟨fun m => ?_, hversions, hnext, hothers⟩
  rw [h]
  exact Extract.inodes_other m

theorem overwrite (n : Nat) (f : Bytes → Bytes) (i : WorldInput) (w : World) :
    Leaves w (Op.overwrite n f i w) := own_file rfl rfl rfl rfl

end Leaves

/-- A call that leaves the files of everybody else. -/
def Leaving (op : Op α) : Prop := ∀ i w, Leaves w (op i w).2

theorem leaving_io {f : WorldInput → World → Result α × World} (h : ∀ i w, Leaves w (f i w).2) :
    Leaving (Op.io f) := by
  intro i w
  unfold Op.io
  split
  · exact .refl w
  · exact h i w

theorem leaving_reading {f : World → Result α} : Leaving (Op.reading f) :=
  leaving_io fun _ w => .refl w

theorem leaving_createNew (p : Path) : Leaving (Op.createNew p) := by
  apply leaving_io
  intro i w
  split
  · exact .refl w
  · exact .own_file rfl rfl rfl rfl

theorem leaving_createDir (p : Path) : Leaving (Op.createDir p) := by
  apply leaving_io
  intro i w
  split
  · exact .refl w
  · exact .names w _

theorem leaving_writeAll (n : Nat) (data : Bytes) : Leaving (Op.writeAll n data) := by
  intro i w
  unfold Op.writeAll
  split
  · exact .overwrite n (· ++ data) i w
  · exact .overwrite n (· ++ data.take i.written) i w

theorem leaving_removeFile (p : Path) : Leaving (Op.removeFile p) := by
  apply leaving_io
  intro i w
  split
  · exact .refl w
  · exact .refl w
  · exact .names w _

theorem leaving_removeDirAll (p : Path) : Leaving (Op.removeDirAll p) := by
  intro i w
  unfold Op.removeDirAll
  split
  · exact .names w _
  · split
    · exact .names w _
    · exact .refl w

theorem leaving_orDisturbed {d : Disturbance} {op : Op α} (h : Leaving op) :
    Leaving (Op.orDisturbed d op) := by
  intro i w
  unfold Op.orDisturbed
  dsimp only
  have hop := h i w
  split
  · exact ⟨hop.inodes, hop.versions, hop.next, hop.others⟩
  · exact hop

theorem leaving_rename (src dst : Path) : Leaving (Op.rename src dst) := by
  apply leaving_io
  intro i w
  split
  · exact .refl w
  · exact .refl w
  · exact .refl w
  · exact .names w _

theorem leaving_renameNoReplace (src dst : Path) : Leaving (Op.renameNoReplace src dst) := by
  apply leaving_io
  intro i w
  split
  · exact .refl w
  · exact .refl w
  · exact .names w _

/-! ## Programs -/

abbrev leaving : Discipline World WorldInput Error := keeping Leaves

theorem leaves_perform {op : Op α} (h : Leaving op) : Built leaving (perform op) :=
  kept_perform (fun i w fs => (h i w).logged fs) fun _ _ _ _ _ => trivial

theorem leaves_attempted {op : Op α} (h : Leaving op) : Built leaving (attempted op) := kept_call h

theorem leaves_reading {f : World → Result α} : Built leaving (perform (Op.reading f)) :=
  leaves_perform leaving_reading

theorem leaves_require (r : Result α) : Yields leaving (fun a => r = .ok a) (require r) :=
  kept_require (fun w fs => (Leaves.refl w).logged fs) r

theorem leaves_check : Built leaving (Prog.check : WorldProg Unit) :=
  kept_check fun w fs => (Leaves.refl w).logged fs

theorem leaves_onControl {f : Control → Control} :
    Built leaving (Prog.onControl f : WorldProg Unit) :=
  kept_onControl fun _ => ⟨fun _ => rfl, rfl, rfl, rfl⟩

theorem leaves_event (e : OperationEvent) : Built leaving (Prog.event e : WorldProg Unit) :=
  leaves_onControl

theorem leaves_random (n : Nat) : Built leaving (random n) := kept_call fun _ w => .refl w

/-- A program that observes leaves. -/
theorem leaves_of_observes {V : α → Prop} {m : WorldProg α}
    (h : Yields observing V m) : Yields leaving V m :=
  h.relax (fun hf i w r w' hs => (hf i w r w' hs).leaves) (fun _ h => h) fun _ h => h

/-! ## The staging directory -/

theorem observes_attempted {f : World → Result α} :
    Built observing (attempted (Op.reading f)) := by
  apply kept_call
  intro i w
  show Observes w (Op.reading f i w).2
  unfold Op.reading Op.io
  split <;> exact .refl w

theorem observes_chooseStagingName (target : Path) (name : OsString) (requested : Option Path) :
    Built observing (chooseStagingName target name requested) := by
  have hallocate : ∀ n, Built observing (allocateStagingName target.dropLast name n) := by
    intro n
    induction n with
    | zero => exact (observes_require _).built
    | succ n ih =>
        unfold allocateStagingName
        refine .bind (observes_random 8) fun r => .bind observes_attempted fun found => ?_
        split
        · exact ih
        · exact .pure _
  cases requested with
  | none => exact hallocate 32
  | some requested =>
      show Built observing (requestedStagingName target requested)
      unfold requestedStagingName
      refine .bind (observes_require _).built fun _ => .bind (observes_require _).built fun _ => ?_
      refine .bind (observes_require _).built fun _ => .bind observes_attempted fun _ => ?_
      exact .bind (observes_require _).built fun _ => .pure _

/-- The root that is chosen is for the destination. -/
theorem observes_choose (target : Path) (requested : Option Path) (os : Platform) :
    Yields observing (fun root => root.target = target) (SafeRoot.choose target requested os) := by
  have hverified : Built observing (openVerifiedDirectory target.dropLast os) := by
    cases os with
    | unix =>
        exact .bind observes_reading fun _ => kept_context (Built.forM fun k _ => observes_reading)
    | windows =>
        refine .forM fun k _ => .bind (kept_context observes_reading) fun node => ?_
        exact .bind observes_reading fun _ => (observes_require _).built
  unfold SafeRoot.choose
  refine .bind observes_attempted fun _ _ => .bind (observes_require _) fun _ _ => ?_
  refine .bind (observes_require _) fun name hname => .bind (kept_context hverified) fun _ _ => ?_
  refine .bind observes_attempted fun _ _ => .bind (observes_require _) fun _ _ => ?_
  refine .bind (observes_chooseStagingName target name requested) fun _ _ => .pure ?_
  exact List.dropLast_append_getLast? _ (Result.ofOption_eq_ok.mp hname)

theorem observes_syncDirectory (p : Path) (os : Platform) :
    Built observing (syncDirectory p os) := by
  cases os with
  | unix => exact .bind observes_reading fun _ => observes_reading
  | windows => exact .pure _

namespace SafeRoot

variable (root : SafeRoot)

theorem leaves_make : Yields leaving root.Same root.make := by
  unfold make
  refine .bind (kept_context (leaves_perform (leaving_createDir _))) fun _ _ => ?_
  refine .bind (kept_context (leaves_perform (leaving_orDisturbed leaving_reading))) fun _ _ => ?_
  exact .pure ⟨rfl, rfl⟩

theorem leaves_installRootId (id : UInt64) : Built leaving (root.installRootId id) :=
  .bind (leaves_require _).built fun _ => .bind leaves_reading fun _ => .pure _

theorem leaves_createDirectory (os : Platform) (id parentId : UInt64) (name : String) :
    Built leaving (root.createDirectory os id parentId name) := by
  unfold createDirectory
  refine .bind (leaves_require _).built fun _ => .bind (leaves_require _).built fun parent => ?_
  refine .bind (kept_context (leaves_perform (leaving_createDir _))) fun _ => ?_
  refine .bind leaves_reading fun node => .bind (leaves_require _).built fun _ => ?_
  exact .bind (kept_context leaves_reading) fun _ => .pure _

theorem leaves_beginFile (os : Platform) (parentId entryId : UInt64) (name : String) :
    Built leaving (root.beginFile os parentId name entryId) := by
  unfold beginFile
  refine .bind (leaves_require _).built fun _ => .bind (leaves_require _).built fun parent => ?_
  refine .bind (leaves_attempted leaving_reading) fun found => ?_
  refine .bind (leaves_require _).built fun _ => .bind (leaves_random 8) fun r => ?_
  refine .bind (kept_context (leaves_perform (leaving_createNew _))) fun n => ?_
  refine .bind leaves_reading fun _ => .bind (kept_call fun _ w => ?_) fun _ => .pure _
  exact ⟨fun _ => rfl, rfl, rfl, rfl⟩

theorem leaves_commit (ω : IterOrder) (os : Platform) : Built leaving (root.commit ω os) := by
  have hsync : ∀ p, Built leaving (syncDirectory p os) := fun p =>
    leaves_of_observes (observes_syncDirectory p os)
  unfold commit
  refine .bind (.forM fun d _ => hsync _) fun _ => ?_
  refine .bind (kept_context (leaves_perform (leaving_renameNoReplace _ _))) fun _ => ?_
  exact .bind (Yields.attempt (hsync root.parent)).built fun synced => .pure _

theorem leaves_dropRoot : Built leaving root.dropRoot := by
  unfold dropRoot
  refine .bind (kept_call fun _ w => .refl w) fun guards => .bind (.forM fun p _ => ?_) fun _ => ?_
  · exact .bind (leaves_attempted (leaving_removeFile p)) fun _ => .pure _
  · exact .bind (leaves_attempted (leaving_orDisturbed (leaving_removeDirAll _))) fun _ => .pure _

end SafeRoot

theorem leaves_commitFile (pending : PendingFile) : Built leaving pending.commit := by
  unfold PendingFile.commit
  refine .bind (kept_context (leaves_perform (leaving_rename _ _))) fun _ => kept_call fun _ w => ?_
  exact ⟨fun _ => rfl, rfl, rfl, rfl⟩

/-! ## The tree -/

namespace Extract

variable {R : Reader Key} {build : Build} {opened : OpenedFile} {progress : ProgressTracker}
  {batchSize : Nat}

theorem leaves_extractFile (root : SafeRoot) (e : Entry) :
    Built leaving (extractFile R build opened progress batchSize root e) := by
  unfold extractFile PendingFile.finishWriting
  refine .bind (root.leaves_beginFile _ _ _ _) fun pending => .bind (.forM fun ks _ => ?_) fun _ => ?_
  · unfold extractBatch decryptInto writeChunk
    refine .bind leaves_check fun _ => .bind (.parForEach fun k _ => ?_) fun _ => .forM fun k _ => ?_
    · have hdecrypt : Built leaving (perform (decryptStored R opened e k)) :=
        leaves_of_observes observes_decryptStored
      refine .bind leaves_check fun _ _ => .bind (kept_context hdecrypt) fun data _ => ?_
      exact kept_call fun _ w => ⟨fun _ => rfl, rfl, rfl, rfl⟩
    · refine .bind (kept_call fun _ w => .refl w) fun data => ?_
      exact .bind (leaves_perform (leaving_writeAll _ _)) fun _ => leaves_onControl
  · exact .bind (.bind leaves_reading fun _ => leaves_reading) fun _ => .pure _

theorem leaves_stageTree (root : SafeRoot) :
    Built leaving (stageTree R build opened progress batchSize root) := by
  unfold stageTree
  refine .bind (leaves_event _) fun _ => .bind (root.leaves_installRootId 1) fun root' => ?_
  refine .bind (.foldlM (fun state _ e _ => ?_) trivial) fun state => .bind leaves_check fun _ => ?_
  · unfold extractEntry
    refine .bind leaves_check fun _ _ => ?_
    split
    · exact .pure trivial
    · split
      · exact .bind (state.1.leaves_createDirectory _ _ _ _) fun _ _ => .pure trivial
      · exact .bind (leaves_extractFile state.1 e) fun _ _ => .pure trivial
  · refine .bind (.forM fun pending _ => leaves_commitFile pending) fun _ => ?_
    exact .bind leaves_check fun _ => .pure _

theorem leaves_publishTree (ω : IterOrder) (os : Platform) (root : SafeRoot) :
    Built leaving (publishTree ω os root) := by
  unfold publishTree
  refine .bind (leaves_event _) fun _ => .bind (leaves_event _) fun _ => ?_
  refine .bind (root.leaves_commit ω os) fun warning => ?_
  cases warning with
  | some text => exact .bind (leaves_event _) fun _ => leaves_event _
  | none => exact leaves_event _

end Extract

end CipherFS
