import CipherFS.Core.Contents
import CipherFS.Core.Progress.Reopen

/-!
# Programs that leave the file system

Most of what an operation does is to ask, to compute and to report. Such a step
changes no file and no name, whatever else it changes, and so it keeps whatever is
known of the files.
-/

namespace CipherFS

open WorldProg Prog V2
open Extract (Holds)

variable {α Key : Type} {P : World → Prop} {V : α → Prop} {w w' : World}

/-- Neither a file nor a name is changed. -/
structure Observes (w w' : World) : Prop where
  fs : w'.fs = w.fs
  versions : w'.versions = w.versions
  next : w'.nextOther = w.nextOther
  others : w'.others = w.others

theorem Observes.refl (w : World) : Observes w w := ⟨rfl, rfl, rfl, rfl⟩

theorem Observes.leaves (h : Observes w w') : Leaves w w' where
  inodes m := by rw [h.fs]
  versions := h.versions
  next := h.next
  others := h.others

/-- An assertion about files only. -/
def OfFiles (P : World → Prop) : Prop := ∀ w w', Observes w w' → P w → P w'

abbrev observing : Discipline World WorldInput Error := keeping Observes

/-- What every step of a program keeps is there at its end. -/
theorem holds_kept {K : World → World → Prop} {m : WorldProg α} (hm : Yields (keeping K) V m)
    (hP : ∀ w w', K w w' → P w → P w') (hstable : World.sharing.Stable P) :
    Holds (fun _ => True) P m (fun a w => V a ∧ P w) fun _ _ => True := by
  let M : Rely World :=
    { rel := fun w w' => P w → P w'
      refl := fun _ h => h
      trans := fun h h' hw => h' (h hw) }
  have htriple : Triple (fun _ : WorldInput => True) World.sharing M.rel P m
      (fun a w => V a ∧ P w) fun _ w => True ∧ P w := by
    refine hm.triple (E := fun _ _ => True) (fun w w' h hw => hstable w w' hw h)
      (fun w w' hw h => h hw) (fun _ _ _ _ _ => trivial) ?_ (fun _ _ _ _ _ => trivial)
      fun _ _ _ _ => trivial
    intro γ f hf i w r w' _ _ hstep
    exact ⟨hP w w' (hf i w r w' hstep), fun _ _ => trivial⟩
  exact (htriple.widen fun _ _ _ => trivial).conseq (fun _ h => h) (fun _ _ h => h)
    fun _ _ _ => trivial

/-- A program that only observes keeps what is known of the files. -/
theorem holds_observing {m : WorldProg α} (hm : Yields observing V m) (hP : OfFiles P)
    (hstable : World.sharing.Stable P) :
    Holds (fun _ => True) P m (fun a w => V a ∧ P w) fun _ _ => True := holds_kept hm hP hstable

/-! ## Calls -/

theorem observes_log (w : World) (fs : List Error) : Observes w { w with failures := fs } :=
  ⟨rfl, rfl, rfl, rfl⟩

theorem observes_reading {f : World → Result α} : Built observing (perform (Op.reading f)) :=
  kept_reading observes_log

theorem observes_require (r : Result α) : Yields observing (fun a => r = .ok a) (require r) :=
  kept_require observes_log r

theorem observes_check : Built observing (Prog.check : WorldProg Unit) := kept_check observes_log

theorem observes_onControl {f : Control → Control} :
    Built observing (Prog.onControl f : WorldProg Unit) :=
  kept_onControl fun _ => ⟨rfl, rfl, rfl, rfl⟩

theorem observes_event (e : OperationEvent) :
    Built observing (Prog.event e : WorldProg Unit) := observes_onControl

theorem observes_random (n : Nat) : Built observing (random n) := kept_call fun _ w => .refl w

theorem observes_newTracker {phase : OperationPhase} {total : UInt64} {reporter : Reporter} :
    Built observing (ProgressTracker.new phase total reporter : WorldProg ProgressTracker) :=
  kept_newTracker fun _ _ => ⟨rfl, rfl, rfl, rfl⟩

theorem observes_decryptStored {R : Reader Key} {opened : OpenedFile} {e : Entry} {k : UInt64} :
    Built observing (perform (decryptStored R opened e k)) := by
  refine kept_perform (fun i w fs => ?_) fun _ _ _ _ _ => trivial
  unfold decryptStored
  split <;> exact observes_log _ _

/-- Verification only reads. -/
theorem observes_verifyAll {R : Reader Key} {opened : OpenedFile} {reporter : Reporter} :
    Built observing (verifyAllWithControl R opened reporter) := by
  unfold verifyAllWithControl
  refine .bind (observes_require _).built fun total => .bind observes_newTracker fun t => ?_
  refine .parForEach fun e _ => .parForEach fun k _ => ?_
  unfold verifyChunk
  refine .bind observes_check fun _ _ => .bind (kept_context observes_decryptStored) fun _ _ => ?_
  exact .bind (observes_require _) fun _ _ => observes_onControl

namespace Pack

variable {R : Reader Key} {req : PackRequest}

/-! ## Packing -/

theorem observes_inspectRequest : Built observing (inspectRequest req) := by
  unfold inspectRequest
  refine .bind observes_check fun _ => .bind (kept_context observes_reading) fun _ => ?_
  refine .bind (observes_require _).built fun _ => .bind (observes_require _).built fun _ => ?_
  exact observes_check

theorem observes_serializeIndex (entries : List Entry) :
    Built observing (serializeIndex R req entries) := by
  unfold serializeIndex
  refine .bind (observes_require _).built fun _ => .bind (observes_require _).built fun _ => ?_
  exact .bind (observes_require _).built fun _ => .pure _

theorem observes_makeHeader (indexSize : UInt64) (scan : Scan) :
    Built observing (makeHeader R req indexSize scan) := by
  unfold makeHeader headerRandom
  refine .bind (kept_call fun _ w => .refl w) fun r => .bind (observes_event _) fun _ => ?_
  refine .bind (observes_require _).built fun _ => .bind observes_check fun _ => ?_
  refine .bind (observes_require _).built fun _ => .bind observes_check fun _ => ?_
  exact .pure _

theorem observes_reserve (p : Path) (lookup : Fs → Option FsNode) :
    Built observing (reserve p lookup) := by
  refine kept_call fun i w => ?_
  split <;> exact ⟨rfl, rfl, rfl, rfl⟩

theorem observes_temporaryPath (output : Path) : ∀ n, Built observing (temporaryPath output n)
  | 0 => (observes_require _).built
  | n + 1 => by
      unfold temporaryPath
      refine .bind (observes_random 8) fun r => .bind (observes_reserve _ _) fun free => ?_
      split
      · exact .pure _
      · exact observes_temporaryPath output n

/-- The temporary path is chosen before anything is made. -/
theorem observes_chooseTemporaryPath : Built observing (chooseTemporaryPath req) := by
  unfold chooseTemporaryPath
  split
  · refine .bind (observes_require _).built fun _ => .bind (observes_require _).built fun _ => ?_
    refine .bind (observes_require _).built fun _ => .bind (observes_reserve _ _) fun free => ?_
    exact .bind (observes_require _).built fun _ => .pure _
  · exact observes_temporaryPath _ _

end Pack

end CipherFS
