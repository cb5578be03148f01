import CipherFS.Core.ErrorKind
import CipherFS.Core.FileSystem
import CipherFS.Framework.Built

/-!
# Steps confined to some paths

What a step may do while an operation prepares its result: it changes the tree
at paths of one set only, removes no directory, touches no file of anybody else,
and does not announce the commit. Whoever raises an error has it logged, unless
it is a cancellation.
-/

namespace CipherFS

open WorldProg Prog

variable {α β : Type} {T T' : Path → Prop} {w w' w'' : World}

/-- The events of a commit. -/
def OperationEvent.ofCommit : OperationEvent → Bool
  | .commitStarted | .committed => true
  | _ => false

/-- A step of an operation that has not reached its commit. -/
structure Moves (T : Path → Prop) (w w' : World) : Prop where
  tree : FileTree.SameOutside T w'.fs.tree w.fs.tree
  directories : ∀ p, w.fs.tree p = some .directory → w'.fs.tree p = some .directory
  foreign : .wiped ∉ w'.disturbances → ∀ n, w'.fs.inodes (.other n) = w.fs.inodes (.other n)
  others : w'.others = w.others
  cancelled : w'.control.cancelled = w.control.cancelled
  silent : w'.control.events.filter (·.ofCommit) = w.control.events.filter (·.ofCommit)
  failures : w.failures ⊆ w'.failures
  disturbances : w.disturbances ⊆ w'.disturbances
  guards : ∀ p ∈ w'.guards, p ∈ w.guards ∨ T p

namespace Moves

theorem refl (w : World) : Moves T w w where
  tree _ _ := rfl
  directories _ h := h
  foreign _ _ := rfl
  others := rfl
  cancelled := rfl
  silent := rfl
  failures := List.Subset.refl _
  disturbances := List.Subset.refl _
  guards _ h := .inl h

theorem trans (h : Moves T w w') (h' : Moves T w' w'') : Moves T w w'' where
  tree := h'.tree.trans h.tree
  directories p hp := h'.directories p (h.directories p hp)
  foreign hw n := (h'.foreign hw n).trans (h.foreign (fun hm => hw (h'.disturbances hm)) n)
  others := h'.others.trans h.others
  cancelled := h'.cancelled.trans h.cancelled
  silent := h'.silent.trans h.silent
  failures := List.Subset.trans h.failures h'.failures
  disturbances := List.Subset.trans h.disturbances h'.disturbances
  guards p hp := (h'.guards p hp).elim (h.guards p) .inr

theorem mono (h : Moves T w w') (hT : ∀ p, T p → T' p) : Moves T' w w' where
  tree q hq := h.tree q fun hTq => hq (hT q hTq)
  directories := h.directories
  foreign := h.foreign
  others := h.others
  cancelled := h.cancelled
  silent := h.silent
  failures := h.failures
  disturbances := h.disturbances
  guards p hp := (h.guards p hp).imp id (hT p)

/-- A step that changes the control part only. -/
theorem control {c : Control} (hc : c.cancelled = w.control.cancelled)
    (hs : c.events.filter (·.ofCommit) = w.control.events.filter (·.ofCommit)) :
    Moves T w { w with control := c } :=
  { refl w with cancelled := hc, silent := hs }

end Moves

/-- The error is a cancellation, or a step has raised it. -/
def Raised (e : Error) (w : World) : Prop :=
  e.cause = .cancelled ∨ ∃ f ∈ w.failures, f.cause = e.cause

/-- What an operation does before its commit. -/
def confined (T : Path → Prop) : Discipline World WorldInput Error where
  good f := ∀ i w r w', f i w = some (r, w') → Moves T w w' ∧ ∀ e, r = .error e → Raised e w'
  soft f := ∀ e, (f e).cause = e.cause
  may _ := False

/-! ## Programs -/

theorem built_call {f : WorldInput → World → Except Error α × World}
    (h : ∀ i w, Moves T w (f i w).2) (he : ∀ i w e, (f i w).1 = .error e → Raised e (f i w).2) :
    Built (confined T) (Prog.call f) := by
  refine .call ?_
  intro i w r w' hf
  have hf := Option.some.inj hf
  have hmoves := h i w
  have hraised := he i w
  rw [hf] at hmoves hraised
  exact ⟨hmoves, hraised⟩

theorem built_perform {op : Op α} (h : ∀ i w, Moves T w (op i w).2) :
    Built (confined T) (perform op) := by
  refine built_call (fun i w => ?_) fun i w e => ?_
  · have hmoves := h i w
    rcases hop : op i w with ⟨a | e, w'⟩
    · rw [hop] at hmoves
      exact hmoves.trans { Moves.refl w' with failures := List.subset_append_left _ _ }
    · rw [hop] at hmoves
      exact hmoves
  · intro he
    rcases hop : op i w with ⟨e' | a, w'⟩
    · simp only [hop] at he ⊢
      obtain rfl := Except.error.inj he
      exact .inr ⟨e', List.mem_append_right _ List.mem_cons_self, rfl⟩
    · simp only [hop] at he
      cases he

theorem built_attempted {op : Op α} (h : ∀ i w, Moves T w (op i w).2) :
    Built (confined T) (attempted op) :=
  built_call (fun i w => h i w) fun _ _ _ he => nomatch he

theorem yields_require (r : Result α) : Yields (confined T) (fun a => r = .ok a) (require r) := by
  cases r with
  | ok a => exact .pure rfl
  | error e =>
      refine .draw (fun i w r w' hf => ?_) fun i w a w' hf => ?_
      · obtain ⟨rfl, rfl⟩ := Prod.mk.inj (Option.some.inj hf)
        refine ⟨{ Moves.refl w with failures := List.subset_append_left _ _ }, ?_⟩
        rintro e' he
        obtain rfl := Except.error.inj he
        exact .inr ⟨e, List.mem_append_right _ List.mem_cons_self, rfl⟩
      · cases (Prod.mk.inj (Option.some.inj hf)).1

theorem built_require (r : Result α) : Built (confined T) (require r) := (yields_require r).built

theorem built_context {text : String} {m : WorldProg α} (h : Built (confined T) m) :
    Built (confined T) (Prog.context text m) := .mapError (fun _ => rfl) h

theorem built_modify {f : World → World} (h : ∀ w, Moves T w (f w)) :
    Built (confined T) (Prog.modify f : WorldProg Unit) :=
  built_call (fun _ w => h w) fun _ _ _ he => nomatch he

theorem built_read {f : World → α} : Built (confined T) (Prog.read f : WorldProg α) :=
  built_call (fun _ w => .refl w) fun _ _ _ he => nomatch he

theorem built_random (n : Nat) : Built (confined T) (random n) :=
  built_call (fun _ w => .refl w) fun _ _ _ he => nomatch he

theorem built_check : Built (confined T) (Prog.check : WorldProg Unit) := by
  refine built_call (fun _ w => .refl w) fun _ w e he => ?_
  dsimp only at he
  split at he
  · obtain rfl := Except.error.inj he
    exact .inl rfl
  · cases he

theorem built_onControl {f : Control → Control} (hc : ∀ c, (f c).cancelled = c.cancelled)
    (hs : ∀ c, (f c).events.filter (·.ofCommit) = c.events.filter (·.ofCommit)) :
    Built (confined T) (Prog.onControl f : WorldProg Unit) :=
  built_modify fun w => .control (hc w.control) (hs w.control)

/-- A reporter that does not make up a commit. -/
def Reporter.Plain (reporter : Reporter) : Prop :=
  ∀ e, e.ofCommit = false → ∀ e', reporter e = some e' → e'.ofCommit = false

theorem Reporter.plain_frontend : Reporter.frontend.Plain :=
  fun _ he _ h => Option.some.inj h ▸ he

theorem filter_events_append {es : List OperationEvent} {o : Option OperationEvent}
    (ho : ∀ e, o = some e → e.ofCommit = false) :
    (es ++ o.toList).filter (·.ofCommit) = es.filter (·.ofCommit) := by
  rw [List.filter_append]
  cases o with
  | none => exact List.append_nil _
  | some e =>
      have he : [e].filter (·.ofCommit) = [] := by
        rw [List.filter_singleton, ho e rfl]
        rfl
      rw [Option.toList_some, he, List.append_nil]

theorem built_report {reporter : Reporter} (hr : reporter.Plain) {e : OperationEvent}
    (he : e.ofCommit = false) :
    Built (confined T) (Prog.report reporter e : WorldProg Unit) :=
  built_onControl (fun _ => rfl) fun _ => filter_events_append (hr e he)

theorem built_event {e : OperationEvent} (he : e.ofCommit = false) :
    Built (confined T) (Prog.event e : WorldProg Unit) :=
  built_report Reporter.plain_frontend he

/-- A new tracker has the reporter it is made with. -/
theorem yields_newTracker {phase : OperationPhase} {total : UInt64} {reporter : Reporter}
    (hr : reporter.Plain) {f : ProgressTracker → WorldProg α} {V : α → Prop}
    (hf : Yields (confined T) V (f ⟨phase, total, reporter⟩)) :
    Yields (confined T) V (ProgressTracker.new phase total reporter >>= f) := by
  show Yields (confined T) V (do
    Prog.report reporter (.phaseStarted phase)
    Prog.report reporter (.progress ⟨phase, 0, total⟩)
    Prog.onControl fun c => { c with completed := fun p => if p = phase then 0 else c.completed p }
    f ⟨phase, total, reporter⟩)
  refine .bind (built_report hr ?_) fun _ _ => .bind (built_report hr ?_) fun _ _ => ?_
  · rfl
  · rfl
  · refine .bind (built_onControl ?_ ?_) fun _ _ => hf
    · exact fun _ => rfl
    · exact fun _ => rfl

theorem built_advance {t : ProgressTracker} (hr : t.reporter.Plain) (amount : UInt64) :
    Built (confined T) (t.advance amount : WorldProg Unit) := by
  refine built_onControl (fun _ => rfl) fun c => ?_
  exact filter_events_append (hr (.progress _) rfl)

/-! ## Calls -/

theorem moves_io {f : WorldInput → World → Result α × World} (h : ∀ i w, Moves T w (f i w).2)
    (i : WorldInput) (w : World) : Moves T w (Op.io f i w).2 := by
  unfold Op.io
  split
  · exact .refl w
  · exact h i w

theorem moves_reading {f : World → Result α} (i : WorldInput) (w : World) :
    Moves T w (Op.reading f i w).2 := moves_io (fun _ w => .refl w) i w

theorem moves_overwrite (n : Nat) (f : Bytes → Bytes) (i : WorldInput) (w : World) :
    Moves T w (Op.overwrite n f i w) :=
  { Moves.refl w with
    foreign := fun _ m => by
      have hne : Ino.other m ≠ .own n := Ino.noConfusion
      simp only [Op.overwrite, Fs.setInode, Function.update_of_ne hne] }

theorem moves_writeAllAt {n : Nat} {data : Bytes} {pos : UInt64} (i : WorldInput) (w : World) :
    Moves T w (Op.writeAllAt n data pos i w).2 := by
  unfold Op.writeAllAt
  split
  · exact moves_overwrite n (writeAt · pos.toNat data) i w
  · exact moves_overwrite n (writeAt · pos.toNat (data.take i.written)) i w

theorem moves_writeAll {n : Nat} {data : Bytes} (i : WorldInput) (w : World) :
    Moves T w (Op.writeAll n data i w).2 := by
  unfold Op.writeAll
  split
  · exact moves_overwrite n (· ++ data) i w
  · exact moves_overwrite n (· ++ data.take i.written) i w

theorem moves_setLen {n : Nat} {len : UInt64} (i : WorldInput) (w : World) :
    Moves T w (Op.setLen n len i w).2 := 
  moves_io (fun i w => moves_overwrite n (CipherFS.setLen · len.toNat) i w) i w

/-- Nothing is at a vacant path, and its parent is a directory. -/
theorem vacant_eq_ok {fs : Fs} {p : Path} {u : Unit} :
    fs.vacant p = .ok u ↔ fs.tree p = none ∧ fs.tree p.dropLast = some .directory := by
  unfold Fs.vacant
  split <;> simp_all [Result.ioError]

/-- A new object at a vacant path. -/
theorem moves_put {p : Path} {node : FsNode} (hT : T p) (hp : w.fs.tree p = none)
    {inodes : Ino → Inode} (hi : ∀ n, inodes (.other n) = w.fs.inodes (.other n)) {k : Nat}
    {reserved : Option Path} :
    Moves T w { w with
      fs := ⟨w.fs.tree.put p node, inodes⟩
      nextOwn := k
      reserved := reserved } :=
  { Moves.refl w with
    tree := .put hT
    directories := by
      intro q hq
      have hne : q ≠ p := by
        rintro rfl
        rw [hp] at hq
        cases hq
      exact (FileTree.put_of_ne hne).trans hq
    foreign := fun _ n => hi n }

theorem moves_createNew {p : Path} (hT : T p) (i : WorldInput) (w : World) :
    Moves T w (Op.createNew p i w).2 := by
  refine moves_io (fun i w => ?_) i w
  split
  · exact .refl w
  · rename_i hv
    refine moves_put hT (vacant_eq_ok.mp hv).1 fun n => ?_
    exact Function.update_of_ne (Ino.noConfusion : Ino.other n ≠ .own w.nextOwn) ..

theorem moves_createDir {p : Path} (hT : T p) (i : WorldInput) (w : World) :
    Moves T w (Op.createDir p i w).2 := by
  refine moves_io (fun i w => ?_) i w
  split
  · exact .refl w
  · rename_i hv
    exact moves_put hT (vacant_eq_ok.mp hv).1 fun _ => rfl

theorem moves_orDisturbed {d : Disturbance} {op : Op α} (h : ∀ i w, Moves T w (op i w).2)
    (i : WorldInput) (w : World) : Moves T w (Op.orDisturbed d op i w).2 := by
  have hmoves := h i w
  unfold Op.orDisturbed
  rcases hop : op i w with ⟨r, w'⟩
  rw [hop] at hmoves
  dsimp only
  split
  · exact { hmoves with
      foreign := fun hw => hmoves.foreign fun hm => hw (List.mem_cons_of_mem _ hm)
      disturbances := List.Subset.trans hmoves.disturbances (List.subset_cons_self _ _) }
  · exact hmoves

theorem moves_removeFile {p : Path} (hT : T p) (i : WorldInput) (w : World) :
    Moves T w (Op.removeFile p i w).2 := by
  refine moves_io (fun i w => ?_) i w
  split
  · exact .refl w
  · exact .refl w
  · rename_i hnot hat
    refine { Moves.refl w with tree := .remove hT, directories := fun q hq => ?_ }
    have hne : q ≠ p := by
      rintro rfl
      exact hnot (Option.some.inj (hat.symm.trans hq))
    exact (FileTree.remove_of_ne hne).trans hq

theorem moves_rename {src dst : Path} (hs : T src) (hd : T dst) (i : WorldInput) (w : World) :
    Moves T w (Op.rename src dst i w).2 := by
  refine moves_io (fun i w => ?_) i w
  split
  · exact .refl w
  · exact .refl w
  · exact .refl w
  · rename_i hnot hsrc hdst
    refine { Moves.refl w with tree := ?_, directories := ?_, foreign := fun _ _ => rfl }
    · exact (FileTree.SameOutside.put hd).trans (.remove hs)
    · intro q hq
      have hnsrc : q ≠ src := by
        rintro rfl
        exact hnot (Option.some.inj (hsrc.symm.trans hq))
      have hndst : q ≠ dst := by
        rintro rfl
        exact hdst hq
      exact (FileTree.put_of_ne hndst).trans ((FileTree.remove_of_ne hnsrc).trans hq)

end CipherFS
