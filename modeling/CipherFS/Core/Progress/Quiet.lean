import CipherFS.Core.Extract
import CipherFS.Core.Pack.Run
import CipherFS.Core.Progress.Meter
import CipherFS.Framework.Shares

/-!
# Programs that report nothing of a phase

Most of an operation has nothing to do with the progress of one phase. A call of
the system leaves the memory of the run alone, and the events in between are
beside the phase; so every function of `pack` and `extract` other than the
tracker's own keeps what has been reported and what is owed.
-/

namespace CipherFS

open WorldProg Prog V2

variable {α β Key : Type} {K : World → World → Prop} {V : α → Prop}

/-- Every step keeps to a relation; any error may be raised. -/
def keeping (K : World → World → Prop) : Discipline World WorldInput Error where
  good f := ∀ i w r w', f i w = some (r, w') → K w w'
  soft _ := True
  may _ := True

/-! ## Any relation -/

theorem kept_call {f : WorldInput → World → Except Error α × World} (h : ∀ i w, K w (f i w).2) :
    Built (keeping K) (Prog.call f) := by
  refine .call fun i w r w' hf => ?_
  have hstep := h i w
  rwa [Option.some.inj hf] at hstep

/-- A call whose error is logged. -/
theorem kept_perform {op : Op α} (h : ∀ i w fs, K w { (op i w).2 with failures := fs })
    (hV : ∀ i w a w', op i w = (.ok a, w') → V a) : Yields (keeping K) V (perform op) := by
  refine .draw (fun i w r w' hf => ?_) fun i w a w' hf => ?_
  · have hop := h i w
    rcases hcase : op i w with ⟨e | a, u⟩
    · simp only [hcase] at hop hf
      obtain ⟨-, rfl⟩ := Prod.mk.inj (Option.some.inj hf)
      exact hop (u.failures ++ [e])
    · simp only [hcase] at hop hf
      obtain ⟨-, rfl⟩ := Prod.mk.inj (Option.some.inj hf)
      exact hop u.failures
  · rcases hcase : op i w with ⟨e | b, u⟩
    · simp only [hcase] at hf
      cases (Prod.mk.inj (Option.some.inj hf)).1
    · simp only [hcase] at hf
      obtain ⟨hb, -⟩ := Prod.mk.inj (Option.some.inj hf)
      exact Except.ok.inj hb ▸ hV i w b u hcase

theorem kept_context {text : String} {m : WorldProg α} (hm : Yields (keeping K) V m) :
    Yields (keeping K) V (Prog.context text m) := .mapError trivial hm

section Logging

variable (hlog : ∀ w fs, K w { w with failures := fs })
include hlog

theorem kept_reading {f : World → Result α} : Built (keeping K) (perform (Op.reading f)) := by
  refine kept_perform (fun i w fs => ?_) fun _ _ _ _ _ => trivial
  have hsame : (Op.reading f i w).2 = w := by
    unfold Op.reading Op.io
    split <;> rfl
  rw [hsame]
  exact hlog w fs

theorem kept_require (r : Result α) : Yields (keeping K) (fun a => r = .ok a) (require r) := by
  cases r with
  | ok a => exact .pure rfl
  | error e =>
      refine .draw (fun i w r w' hf => ?_) fun i w a w' hf => ?_
      · obtain ⟨-, rfl⟩ := Prod.mk.inj (Option.some.inj hf)
        exact hlog w _
      · cases (Prod.mk.inj (Option.some.inj hf)).1

theorem kept_check : Built (keeping K) (Prog.check : WorldProg Unit) :=
  kept_call fun _ w => hlog w w.failures

end Logging

theorem kept_onControl {f : Control → Control} (h : ∀ w, K w { w with control := f w.control }) :
    Built (keeping K) (Prog.onControl f : WorldProg Unit) := kept_call fun _ w => h w

/-! ## Quiet steps -/

/-- Only events of `ok` are reported, and the counter of `q` and the memory of a
batch stay. -/
structure Quiet (ok : OperationEvent → Prop) (q : OperationPhase) (w w' : World) : Prop where
  events : ∃ es, w'.control.events = w.control.events ++ es ∧ ∀ e ∈ es, ok e
  counter : w'.control.completed q = w.control.completed q
  chunks : w'.chunks = w.chunks

variable {ok : OperationEvent → Prop} {q : OperationPhase} {w w' : World}

theorem Quiet.of_memory (hcontrol : w'.control = w.control) (hchunks : w'.chunks = w.chunks) :
    Quiet ok q w w' := by
  refine ⟨⟨[], ?_, nofun⟩, ?_, hchunks⟩
  · rw [hcontrol, List.append_nil]
  · rw [hcontrol]

theorem Quiet.logging (w : World) (fs : List Error) : Quiet ok q w { w with failures := fs } :=
  .of_memory rfl rfl

/-- A call that leaves the memory of the run alone. -/
def Remote (op : Op α) : Prop :=
  ∀ i w, (op i w).2.control = w.control ∧ (op i w).2.chunks = w.chunks

theorem remote_io {f : WorldInput → World → Result α × World}
    (h : ∀ i w, (f i w).2.control = w.control ∧ (f i w).2.chunks = w.chunks) :
    Remote (Op.io f) := by
  intro i w
  unfold Op.io
  split
  · exact ⟨rfl, rfl⟩
  · exact h i w

theorem remote_reading {f : World → Result α} : Remote (Op.reading f) :=
  remote_io fun _ _ => ⟨rfl, rfl⟩

theorem remote_createNew (p : Path) : Remote (Op.createNew p) := by
  refine remote_io fun i w => ?_
  split <;> exact ⟨rfl, rfl⟩

theorem remote_createDir (p : Path) : Remote (Op.createDir p) := by
  refine remote_io fun i w => ?_
  split <;> exact ⟨rfl, rfl⟩

theorem remote_setLen (n : Nat) (len : UInt64) : Remote (Op.setLen n len) :=
  remote_io fun _ _ => ⟨rfl, rfl⟩

theorem remote_writeAllAt (n : Nat) (data : Bytes) (pos : UInt64) :
    Remote (Op.writeAllAt n data pos) := by
  intro i w
  unfold Op.writeAllAt
  split <;> exact ⟨rfl, rfl⟩

theorem remote_writeAll (n : Nat) (data : Bytes) : Remote (Op.writeAll n data) := by
  intro i w
  unfold Op.writeAll
  split <;> exact ⟨rfl, rfl⟩

theorem remote_removeFile (p : Path) : Remote (Op.removeFile p) := by
  refine remote_io fun i w => ?_
  split <;> exact ⟨rfl, rfl⟩

theorem remote_removeDirAll (p : Path) : Remote (Op.removeDirAll p) := by
  intro i w
  unfold Op.removeDirAll
  split
  · exact ⟨rfl, rfl⟩
  · split <;> exact ⟨rfl, rfl⟩

theorem remote_orDisturbed {d : Disturbance} {op : Op α} (h : Remote op) :
    Remote (Op.orDisturbed d op) := by
  intro i w
  unfold Op.orDisturbed
  dsimp only
  split <;> exact h i w

theorem remote_rename (src dst : Path) : Remote (Op.rename src dst) := by
  refine remote_io fun i w => ?_
  split <;> exact ⟨rfl, rfl⟩

theorem remote_renameNoReplace (src dst : Path) : Remote (Op.renameNoReplace src dst) := by
  refine remote_io fun i w => ?_
  split <;> exact ⟨rfl, rfl⟩

theorem remote_overwriteHeader (file : FsNode) (image : Bytes) :
    Remote (overwriteHeader file image) := by
  intro i w
  unfold overwriteHeader
  dsimp only
  split <;> exact ⟨rfl, rfl⟩

theorem remote_decryptStored {R : Reader Key} {opened : OpenedFile} {e : Entry} {k : UInt64} :
    Remote (decryptStored R opened e k) := by
  intro i w
  unfold decryptStored
  split <;> exact ⟨rfl, rfl⟩

/-- What makes up a quiet program. -/
abbrev quietly (ok : OperationEvent → Prop) (q : OperationPhase) :
    Discipline World WorldInput Error := keeping (Quiet ok q)

theorem quiet_perform {op : Op α} (h : Remote op) : Built (quietly ok q) (perform op) :=
  kept_perform (fun i w _ => .of_memory (h i w).1 (h i w).2) fun _ _ _ _ _ => trivial

theorem quiet_attempted {op : Op α} (h : Remote op) : Built (quietly ok q) (attempted op) :=
  kept_call fun i w => .of_memory (h i w).1 (h i w).2

theorem quiet_reading {f : World → Result α} : Built (quietly ok q) (perform (Op.reading f)) :=
  quiet_perform remote_reading

theorem yields_quiet_require (r : Result α) :
    Yields (quietly ok q) (fun a => r = .ok a) (require r) := kept_require Quiet.logging r

theorem quiet_require (r : Result α) : Built (quietly ok q) (require r) :=
  (yields_quiet_require r).built

theorem quiet_check : Built (quietly ok q) (Prog.check : WorldProg Unit) :=
  kept_check Quiet.logging

theorem quiet_random (n : Nat) : Built (quietly ok q) (random n) :=
  kept_call fun _ _ => .of_memory rfl rfl

theorem quiet_modify {f : World → World}
    (h : ∀ w, (f w).control = w.control ∧ (f w).chunks = w.chunks) :
    Built (quietly ok q) (Prog.modify f : WorldProg Unit) :=
  kept_call fun _ w => .of_memory (h w).1 (h w).2

/-- A reporter that passes the event on as one of `ok`, or not at all. -/
theorem quiet_report {reporter : Reporter} {e : OperationEvent}
    (h : ∀ e', reporter e = some e' → ok e') :
    Built (quietly ok q) (Prog.report reporter e : WorldProg Unit) := by
  refine kept_onControl fun w => ⟨⟨_, rfl, ?_⟩, rfl, rfl⟩
  exact fun e' he' => h e' (Option.mem_toList.mp he')

theorem quiet_event {e : OperationEvent} (h : ok e) :
    Built (quietly ok q) (Prog.event e : WorldProg Unit) := by
  show Built (quietly ok q) (Prog.report .frontend e : WorldProg Unit)
  exact quiet_report fun _ he => Option.some.inj he ▸ h

/-! ## Containers -/

/-- The index of the container has been validated. -/
def Validated (R : Reader Key) (opened : OpenedFile) : Prop :=
  ∃ index, validateIndex R.order R.os opened.header index = .ok opened.index

theorem quiet_readHeaderFrom (file : FsNode) : Built (quietly ok q) (readHeaderFrom file) := by
  unfold readHeaderFrom
  refine .bind (kept_context quiet_reading) fun bytes => ?_
  refine .bind (kept_context (quiet_require _)) fun header => .bind quiet_reading fun len => ?_
  exact .bind (quiet_require _) fun _ => .pure _

theorem quiet_storedDek (path : Path) (header : Header (ByteArr 48)) (found : UnlockResult) :
    Built (quietly ok q) (storedDek path header found) := by
  have hrandom : Built (quietly ok q) slotRandom := kept_call fun _ _ => .of_memory rfl rfl
  cases found with
  | unlocked dek => exact .pure dek
  | duress =>
      show Built (quietly ok q) (wipeStored path header >>= fun _ => require (Result.bail _))
      unfold wipeStored
      refine .bind (.bind hrandom fun r₀ => .bind hrandom fun r₁ => ?_) fun _ => quiet_require _
      refine .bind quiet_reading fun file => .bind (quiet_require _) fun image => ?_
      exact .bind (quiet_perform (remote_overwriteHeader file image)) fun _ => quiet_reading
  | failed => exact quiet_require (Result.bail _)

theorem yields_quiet_openIndex (R : Reader Key) (file : FsNode) (header : Header (ByteArr 48))
    (dek : ByteArr 32) : Yields (quietly ok q) (Validated R) (openIndex R file header dek) := by
  unfold openIndex
  refine .bind quiet_reading fun encrypted _ => .bind (quiet_require _) fun key _ => ?_
  refine .bind (kept_context (quiet_require _)) fun serialized _ => ?_
  refine .bind (kept_context (quiet_require _)) fun index _ => ?_
  refine .bind (yields_quiet_require _) fun v hv => .bind (quiet_require _) fun dataStart _ => ?_
  exact .pure ⟨index, hv⟩

theorem yields_quiet_openStored (R : Reader Key) (path : Path) (password : String) :
    Yields (quietly ok q) (Validated R) (openStored R path password) := by
  unfold openStored
  refine .bind quiet_reading fun file _ => .bind (quiet_readHeaderFrom file) fun header _ => ?_
  refine .bind (quiet_require _) fun found _ => ?_
  refine .bind (quiet_storedDek path header found) fun dek _ => ?_
  exact yields_quiet_openIndex R file header dek

/-! ## The staging directory -/

theorem quiet_chooseStagingName (target : Path) (name : OsString) (requested : Option Path) :
    Built (quietly ok q) (chooseStagingName target name requested) := by
  have hallocate : ∀ n, Built (quietly ok q) (allocateStagingName target.dropLast name n) := by
    intro n
    induction n with
    | zero => exact quiet_require _
    | succ n ih =>
        unfold allocateStagingName
        refine .bind (quiet_random 8) fun r => .bind (quiet_attempted remote_reading) fun found => ?_
        split
        · exact ih
        · exact .pure _
  cases requested with
  | none => exact hallocate 32
  | some requested =>
      show Built (quietly ok q) (requestedStagingName target requested)
      unfold requestedStagingName
      refine .bind (quiet_require _) fun _ => .bind (quiet_require _) fun _ => ?_
      refine .bind (quiet_require _) fun _ => .bind (quiet_attempted remote_reading) fun _ => ?_
      exact .bind (quiet_require _) fun _ => .pure _

theorem quiet_choose (target : Path) (requested : Option Path) (os : Platform) :
    Built (quietly ok q) (SafeRoot.choose target requested os) := by
  have hverified : Built (quietly ok q) (openVerifiedDirectory target.dropLast os) := by
    cases os with
    | unix => exact .bind quiet_reading fun _ => kept_context (Built.forM fun k _ => quiet_reading)
    | windows =>
        refine .forM fun k _ => .bind (kept_context quiet_reading) fun node => ?_
        exact .bind quiet_reading fun _ => quiet_require _
  unfold SafeRoot.choose
  refine .bind (quiet_attempted remote_reading) fun _ => .bind (quiet_require _) fun _ => ?_
  refine .bind (quiet_require _) fun name => .bind (kept_context hverified) fun _ => ?_
  refine .bind (quiet_attempted remote_reading) fun _ => .bind (quiet_require _) fun _ => ?_
  exact .bind (quiet_chooseStagingName target name requested) fun _ => .pure _

theorem quiet_syncDirectory (p : Path) (os : Platform) :
    Built (quietly ok q) (syncDirectory p os) := by
  cases os with
  | unix => exact .bind quiet_reading fun _ => quiet_reading
  | windows => exact .pure _

namespace SafeRoot

variable (root : SafeRoot)

theorem quiet_make : Built (quietly ok q) root.make := by
  unfold make
  refine .bind (kept_context (quiet_perform (remote_createDir _))) fun _ => ?_
  refine .bind (kept_context (quiet_perform (remote_orDisturbed remote_reading))) fun _ => ?_
  exact .pure _

theorem quiet_installRootId (id : UInt64) : Built (quietly ok q) (root.installRootId id) :=
  .bind (quiet_require _) fun _ => .bind quiet_reading fun _ => .pure _

theorem quiet_createDirectory (os : Platform) (id parentId : UInt64) (name : String) :
    Built (quietly ok q) (root.createDirectory os id parentId name) := by
  unfold createDirectory
  refine .bind (quiet_require _) fun _ => .bind (quiet_require _) fun parent => ?_
  refine .bind (kept_context (quiet_perform (remote_createDir _))) fun _ => ?_
  refine .bind quiet_reading fun node => .bind (quiet_require _) fun _ => ?_
  exact .bind (kept_context quiet_reading) fun _ => .pure _

theorem quiet_beginFile (os : Platform) (parentId entryId : UInt64) (name : String) :
    Built (quietly ok q) (root.beginFile os parentId name entryId) := by
  unfold beginFile
  refine .bind (quiet_require _) fun _ => .bind (quiet_require _) fun parent => ?_
  refine .bind (quiet_attempted remote_reading) fun found => .bind (quiet_require _) fun _ => ?_
  refine .bind (quiet_random 8) fun r => ?_
  refine .bind (kept_context (quiet_perform (remote_createNew _))) fun n => ?_
  refine .bind quiet_reading fun _ => .bind (quiet_modify fun w => ?_) fun _ => .pure _
  exact ⟨rfl, rfl⟩

theorem quiet_commit (ω : IterOrder) (os : Platform) : Built (quietly ok q) (root.commit ω os) := by
  unfold commit
  refine .bind (.forM fun d _ => quiet_syncDirectory _ os) fun _ => ?_
  refine .bind (kept_context (quiet_perform (remote_renameNoReplace _ _))) fun _ => ?_
  exact .bind (Yields.attempt (quiet_syncDirectory root.parent os)).built fun synced => .pure _

theorem quiet_dropRoot : Built (quietly ok q) root.dropRoot := by
  unfold dropRoot
  refine .bind (kept_call fun _ _ => .of_memory rfl rfl) fun guards => ?_
  refine .bind (.forM fun p _ => ?_) fun _ => ?_
  · exact .bind (quiet_attempted (remote_removeFile p)) fun _ => .pure _
  · exact .bind (quiet_attempted (remote_orDisturbed (remote_removeDirAll _))) fun _ => .pure _

end SafeRoot

theorem quiet_commitFile (pending : PendingFile) : Built (quietly ok q) pending.commit := by
  unfold PendingFile.commit
  refine .bind (kept_context (quiet_perform (remote_rename _ _))) fun _ => ?_
  exact quiet_modify fun _ => ⟨rfl, rfl⟩

/-! ## The temporary container -/

namespace Pack

theorem quiet_reserve (p : Path) (lookup : Fs → Option FsNode) :
    Built (quietly ok q) (reserve p lookup) := by
  refine kept_call fun i w => ?_
  split <;> exact .of_memory rfl rfl

theorem quiet_temporaryPath (output : Path) : ∀ n, Built (quietly ok q) (temporaryPath output n)
  | 0 => quiet_require _
  | n + 1 => by
      unfold temporaryPath
      refine .bind (quiet_random 8) fun r => .bind (quiet_reserve _ _) fun free => ?_
      split
      · exact .pure _
      · exact quiet_temporaryPath output n

theorem quiet_chooseTemporaryPath (req : PackRequest) :
    Built (quietly ok q) (chooseTemporaryPath req) := by
  unfold chooseTemporaryPath
  split
  · refine .bind (quiet_require _) fun _ => .bind (quiet_require _) fun _ => ?_
    refine .bind (quiet_require _) fun _ => .bind (quiet_reserve _ _) fun free => ?_
    exact .bind (quiet_require _) fun _ => .pure _
  · exact quiet_temporaryPath _ _

theorem quiet_dropTemp (temp : Path) : Built (quietly ok q) (dropTemp temp) := by
  refine .bind (quiet_attempted fun i w => ?_) fun _ => .pure _
  split
  · exact remote_orDisturbed (remote_removeFile temp) i w
  · exact remote_removeFile temp i w

theorem quiet_syncParent (p : Path) : Built (quietly ok q) (syncParent p) :=
  .bind quiet_reading fun _ => quiet_reading

end Pack

end CipherFS
