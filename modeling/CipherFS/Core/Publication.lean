import CipherFS.Core.Interference
import CipherFS.Core.Preparation

/-!
# Publication

`pack` and `extract` make their result beside the output and move it there in
one step. Until then everything but the artifact is as everybody else has it;
from then on the result is at the output, whatever else the run does and however
it ends. No step tells of a commit that has not been made.
-/

namespace CipherFS

open WorldProg Prog V2

variable {α Key : Type} {w w' : World} {V : α → Prop}

/-- An object that an operation publishes. -/
def TemporaryArtifactKind.IsOf : TemporaryArtifactKind → FsNode → Prop
  | .packContainer, .file (.own _) => True
  | .extractionTree, .directory => True
  | _, _ => False

/-- Where an operation makes its result, and where it publishes it. -/
structure Route where
  kind : TemporaryArtifactKind
  artifact : Path
  output : Path

/-- What is below a path stays there. -/
def Keeps (p : Path) (w w' : World) : Prop :=
  ∀ q node, p <+: q → w.fs.tree q = some node → w'.fs.tree q = some node

theorem Keeps.trans {p : Path} {w'' : World} (h : Keeps p w w') (h' : Keeps p w' w'') :
    Keeps p w w'' := fun q node hq hnode => h' q node hq (h q node hq hnode)

/-- Nobody else removes anything. -/
theorem Keeps.of_sharing (p : Path) (h : World.sharing.rel w w') : Keeps p w w' := by
  have hstable : World.sharing.Stable (Keeps p w) := by
    apply World.stable_sharing
    intro u u' hi hu q node hq hnode
    have hat := hu q node hq hnode
    rcases hi.tree q with ⟨heq, -⟩ | ⟨hnone, -⟩
    · rw [heq, hat]
    · rw [hnone] at hat
      cases hat
  exact hstable w w' (fun q node _ hnode => hnode) h

namespace Route

variable {r : Route}

/-- The artifact is beside the output. -/
structure Siblings (r : Route) : Prop where
  artifact : r.artifact ≠ []
  output : r.output ≠ []
  ne : r.artifact ≠ r.output
  parent : r.artifact.dropLast = r.output.dropLast

/-- The result and what is in it lies outside the artifact. -/
theorem Siblings.apart (h : r.Siblings) {q : Path} (hq : r.output <+: q) : ¬r.artifact <+: q := by
  have hartifact := List.dropLast_append_getLast h.artifact
  have houtput := List.dropLast_append_getLast h.output
  rw [← hartifact]
  rw [← houtput, ← h.parent] at hq
  refine not_prefix_of_sibling ?_ hq
  intro heq
  apply h.ne
  rw [← hartifact, ← houtput, heq, h.parent]

/-- What the operation may change of the tree before its commit. -/
def Private (r : Route) (q : Path) : Prop := r.Siblings ∧ r.artifact <+: q

theorem Private.not_output {q : Path} (h : r.Private q) : ¬r.output <+: q :=
  fun hq => h.1.apart hq h.2

/-- The result is at the output, where nobody else has put anything. -/
def Published (r : Route) (w : World) : Prop :=
  ∃ node, r.kind.IsOf node ∧ w.fs.tree r.output = some node ∧ w.others.tree r.output = none

/-- The artifact is at its path. -/
def Made (r : Route) (w : World) : Prop :=
  ∃ node, r.kind.IsOf node ∧ w.fs.tree r.artifact = some node

/-- A run before its commit. -/
structure Before (r : Route) (w : World) : Prop where
  tree : FileTree.SameOutside r.Private w.fs.tree w.others.tree
  guards : ∀ p ∈ w.guards, r.Private p
  silent : .committed ∉ w.control.events

/-- A run after its commit. -/
structure After (r : Route) (w : World) : Prop where
  siblings : r.Siblings
  guards : ∀ p ∈ w.guards, r.Private p
  published : r.Published w

/-- A step of a run: before the commit it may be the commit, and after it nothing
of the result is lost. -/
structure Step (r : Route) (w w' : World) : Prop where
  before : r.Before w → r.Before w' ∨ r.After w'
  after : r.After w → r.After w' ∧ Keeps r.output w w'

theorem Before.start (fs : Fs) (nextOther : Nat) : r.Before (World.start fs nextOther) where
  tree _ _ := rfl
  guards := nofun
  silent := nofun

theorem Before.not_published (h : r.Before w) : ¬r.Published w := by
  rintro ⟨node, -, hnode, hnone⟩
  have heq := h.tree r.output fun hp => hp.not_output (List.prefix_refl _)
  rw [hnode, hnone] at heq
  cases heq

theorem Before.not_after (h : r.Before w) : ¬r.After w := fun ha => h.not_published ha.published

theorem Before.stable : World.sharing.Stable r.Before := by
  apply World.stable_sharing
  intro w w' hi h
  refine ⟨fun q hq => ?_, hi.memory.1 ▸ h.guards, hi.events ▸ h.silent⟩
  rcases hi.tree q with ⟨hfs, hothers⟩ | ⟨-, -, node, hfs, hothers, -⟩
  · rw [hfs, hothers, h.tree q hq]
  · rw [hfs, hothers]

theorem Made.stable : World.sharing.Stable r.Made := by
  intro w w' ⟨node, hkind, hnode⟩ h
  exact ⟨node, hkind, Keeps.of_sharing r.artifact h _ node (List.prefix_refl _) hnode⟩

theorem Published.stable : World.sharing.Stable r.Published := by
  apply World.stable_sharing
  rintro w w' hi ⟨node, hkind, hnode, hnone⟩
  rcases hi.tree r.output with ⟨hfs, hothers⟩ | ⟨hfree, -⟩
  · exact ⟨node, hkind, hfs.trans hnode, hothers.trans hnone⟩
  · rw [hfree] at hnode
    cases hnode

/-- Nobody else publishes the result. -/
theorem Published.of_interferes (h : Interferes w w') (hw' : r.Published w') : r.Published w := by
  obtain ⟨node, hkind, hnode, hnone⟩ := hw'
  rcases h.tree r.output with ⟨hfs, hothers⟩ | ⟨-, -, new, -, hnew, -⟩
  · exact ⟨node, hkind, hfs.symm.trans hnode, hothers.symm.trans hnone⟩
  · rw [hnone] at hnew
    cases hnew

theorem After.stable : World.sharing.Stable r.After := by
  have hguards : World.sharing.Stable fun w => ∀ p ∈ w.guards, r.Private p :=
    World.stable_sharing fun w w' hi h => hi.memory.1 ▸ h
  intro w w' h hrel
  exact ⟨h.siblings, hguards w w' h.guards hrel, Published.stable w w' h.published hrel⟩

/-- The run is before its commit, with its artifact at its path. -/
def Ready (r : Route) (w : World) : Prop := r.Before w ∧ r.Made w

theorem Ready.stable : World.sharing.Stable r.Ready := fun w w' h hrel =>
  ⟨Before.stable w w' h.1 hrel, Made.stable w w' h.2 hrel⟩

/-! ## Steps that stay with the artifact -/

/-- A step that is not the commit. -/
structure Aside (r : Route) (w w' : World) : Prop where
  tree : FileTree.SameOutside r.Private w'.fs.tree w.fs.tree
  others : w'.others = w.others
  guards : ∀ p ∈ w'.guards, p ∈ w.guards ∨ r.Private p
  silent : .committed ∈ w'.control.events → .committed ∈ w.control.events

namespace Aside

theorem refl : r.Aside w w := ⟨fun _ _ => rfl, rfl, fun _ => .inl, id⟩

theorem of_moves {T : Path → Prop} (hT : ∀ p, T p → r.Private p) (h : Moves T w w') :
    r.Aside w w' where
  tree := (h.mono hT).tree
  others := h.others
  guards := (h.mono hT).guards
  silent hc := by
    have hmem := List.mem_filter.mpr ⟨hc, (rfl : OperationEvent.committed.ofCommit = true)⟩
    rw [h.silent] at hmem
    exact (List.mem_filter.mp hmem).1

theorem before (h : r.Aside w w') (hw : r.Before w) : r.Before w' where
  tree := h.others ▸ h.tree.trans hw.tree
  guards p hp := (h.guards p hp).elim (hw.guards p) id
  silent hc := hw.silent (h.silent hc)

theorem after (h : r.Aside w w') (hw : r.After w) : r.After w' ∧ Keeps r.output w w' := by
  have hkeeps : Keeps r.output w w' := fun q node hq hnode =>
    (h.tree q fun hp => hp.not_output hq).trans hnode
  obtain ⟨node, hkind, hnode, hnone⟩ := hw.published
  refine ⟨⟨hw.siblings, fun p hp => (h.guards p hp).elim (hw.guards p) id, ?_⟩, hkeeps⟩
  exact ⟨node, hkind, hkeeps _ node (List.prefix_refl _) hnode, h.others ▸ hnone⟩

theorem step (h : r.Aside w w') : r.Step w w' := ⟨fun hw => .inl (h.before hw), h.after⟩

end Aside

/-- The run is before its commit or after it. -/
def Sound (r : Route) (w : World) : Prop := r.Before w ∨ r.After w

theorem Sound.stable : World.sharing.Stable r.Sound := fun w w' h hrel =>
  h.imp (fun hb => Before.stable w w' hb hrel) fun ha => After.stable w w' ha hrel

theorem Step.sound (h : r.Step w w') (hw : r.Sound w) : r.Sound w' :=
  hw.elim h.before fun ha => .inr (h.after ha).1

theorem Step.of_before (hw : r.Before w) (h : r.Sound w') : r.Step w w' :=
  ⟨fun _ => h, fun ha => absurd ha hw.not_after⟩

/-! ## Triples -/

section

variable {m : WorldProg α} {P : World → Prop} {Q : α → World → Prop}

/-- `m` runs from `P` to `Q`, or fails with the run still sound. -/
abbrev Runs (r : Route) (P : World → Prop) (m : WorldProg α) (Q : α → World → Prop) : Prop :=
  Triple (fun _ => True) World.sharing r.Step P m Q fun _ => r.Sound

/-- What a program of steps aside keeps. -/
theorem runs_aside {T : Path → Prop} (hm : Yields (confined T) V m)
    (hT : ∀ p, T p → r.Private p) (hstable : World.sharing.Stable P)
    (hP : ∀ w w', Moves T w w' → P w → P w') (hsound : ∀ w, P w → r.Sound w) :
    r.Runs P m fun a w => V a ∧ P w := by
  let M : Rely World :=
    { rel := fun w w' => r.Step w w' ∧ (P w → P w')
      refl := fun w => ⟨⟨.inl, fun ha => ⟨ha, fun _ _ _ hn => hn⟩⟩, id⟩
      trans := by
        rintro w w' w'' ⟨h, hp⟩ ⟨h', hp'⟩
        refine ⟨⟨fun hb => ?_, fun ha => ?_⟩, fun hw => hp' (hp hw)⟩
        · exact (h.before hb).elim h'.before fun ha => .inr (h'.after ha).1
        · obtain ⟨ha', hk⟩ := h.after ha
          exact ⟨(h'.after ha').1, hk.trans (h'.after ha').2⟩ }
  have htriple : Triple (fun _ : WorldInput => True) World.sharing M.rel P m
      (fun a w => V a ∧ P w) fun _ w => True ∧ P w := by
    refine hm.triple (E := fun _ _ => True) (fun w w' h => ?_) (fun w w' hw h => h.2 hw)
      (fun _ _ _ _ _ => trivial) ?_ (fun _ _ _ _ _ => trivial) fun _ _ _ _ => trivial
    · refine ⟨⟨fun hb => .inl (Before.stable w w' hb h), fun ha => ?_⟩, fun hw => hstable w w' hw h⟩
      exact ⟨After.stable w w' ha h, Keeps.of_sharing r.output h⟩
    · intro γ f hf i w res w' _ _ hstep
      have hmoves := (hf i w res w' hstep).1
      exact ⟨⟨(Aside.of_moves hT hmoves).step, hP w w' hmoves⟩, fun _ _ => trivial⟩
  exact (htriple.widen fun _ _ h => h.1).conseq (fun _ h => h) (fun _ _ h => h)
    fun _ w h => hsound w h.2

/-- A call that does nothing when it fails. -/
theorem runs_perform {op : Op α} (hstable : World.sharing.Stable P)
    (hsound : ∀ w, P w → r.Sound w) (herror : ∀ i w e w', op i w = (.error e, w') → w' = w)
    (hok : ∀ i w a w', P w → op i w = (.ok a, w') → r.Step w w' ∧ Q a w') :
    r.Runs P (perform op) Q := by
  refine .call hstable fun i w _ hw => ?_
  rcases hop : op i w with ⟨e | a, w'⟩
  · obtain rfl := herror i w e w' hop
    have haside : r.Aside w' { w' with failures := w'.failures ++ [e] } :=
      ⟨fun _ _ => rfl, rfl, fun _ => .inl, id⟩
    exact ⟨haside.step, haside.step.sound (hsound w' hw)⟩
  · exact hok i w a w' hw hop

/-- Something happens outside the file system. -/
theorem runs_modify {f : World → World} {Q : Unit → World → Prop}
    (hstable : World.sharing.Stable P) (hstep : ∀ w, P w → r.Step w (f w))
    (hQ : ∀ w, P w → Q () (f w)) : r.Runs P (Prog.modify f) Q :=
  .modify hstable hstep hQ

theorem runs_context {text : String} (h : r.Runs P m Q) : r.Runs P (Prog.context text m) Q :=
  .mapError h

/-- What leaves the artifact as it is. -/
theorem runs_still (hm : Yields (confined fun _ => False) V m) :
    r.Runs r.Ready m fun a w => V a ∧ r.Ready w := by
  refine runs_aside hm (fun _ => False.elim) Ready.stable ?_ fun w hw => .inl hw.1
  rintro w w' hmoves ⟨hbefore, node, hnode, hat⟩
  refine ⟨(Aside.of_moves (fun _ => False.elim) hmoves).before hbefore, node, hnode, ?_⟩
  rw [hmoves.tree _ id, hat]

/-! ## Calls of both operations -/

theorem io_error {f : WorldInput → World → Result α × World} {i : WorldInput} {e : Error}
    (hf : ∀ e w', f i w = (.error e, w') → w' = w) (h : Op.io f i w = (.error e, w')) :
    w' = w := by
  unfold Op.io at h
  split at h
  · exact (Prod.mk.inj h).2.symm
  · exact hf e w' h

theorem io_ok {f : WorldInput → World → Result α × World} {i : WorldInput} {a : α}
    (h : Op.io f i w = (.ok a, w')) : f i w = (.ok a, w') := by
  unfold Op.io at h
  split at h
  · cases (Prod.mk.inj h).1
  · exact h

theorem renameNoReplace_error {src dst : Path} {i : WorldInput} {e : Error}
    (h : Op.renameNoReplace src dst i w = (.error e, w')) : w' = w := by
  refine io_error (fun e w' hf => ?_) h
  split at hf
  · exact (Prod.mk.inj hf).2.symm
  · exact (Prod.mk.inj hf).2.symm
  · cases (Prod.mk.inj hf).1

theorem createNew_error {p : Path} {i : WorldInput} {e : Error}
    (h : Op.createNew p i w = (.error e, w')) : w' = w := by
  refine io_error (fun e w' hf => ?_) h
  split at hf
  · exact (Prod.mk.inj hf).2.symm
  · cases (Prod.mk.inj hf).1

theorem createDir_error {p : Path} {i : WorldInput} {e : Error}
    (h : Op.createDir p i w = (.error e, w')) : w' = w := by
  refine io_error (fun e w' hf => ?_) h
  split at hf
  · exact (Prod.mk.inj hf).2.symm
  · cases (Prod.mk.inj hf).1

/-- A new object at the path of the artifact. -/
theorem runs_make {op : Op α}
    (herror : ∀ i w e w', op i w = (.error e, w') → w' = w)
    (hmoves : ∀ i w, Moves r.Private w (op i w).2)
    (hmade : ∀ i w a w', op i w = (.ok a, w') → r.Made w') :
    r.Runs r.Before (perform op) fun _ => r.Ready := by
  refine runs_perform Before.stable (fun w hw => .inl hw) herror fun i w a w' hw hop => ?_
  have haside : r.Aside w (op i w).2 := Aside.of_moves (fun _ hp => hp) (hmoves i w)
  rw [hop] at haside
  exact ⟨haside.step, haside.before hw, hmade i w a w' hop⟩

/-- **The commit of an operation.** -/
theorem runs_rename (hs : r.Siblings) :
    r.Runs r.Ready (perform (Op.renameNoReplace r.artifact r.output)) fun _ => r.After := by
  refine runs_perform Ready.stable (fun w hw => .inl hw.1)
    (fun i w e w' hop => renameNoReplace_error hop) fun i w _ w' hw hop => ?_
  have hf := io_ok hop
  split at hf
  · cases (Prod.mk.inj hf).1
  · cases (Prod.mk.inj hf).1
  · rename_i hvacant
    obtain ⟨hbefore, node, hkind, hnode⟩ := hw
    obtain rfl := (Prod.mk.inj hf).2
    have hfree := (vacant_eq_ok.mp hvacant).1
    have hout : ¬r.Private r.output := fun hp => hp.not_output (List.prefix_refl _)
    have hafter : r.After { w with fs := { w.fs with tree := w.fs.tree.move r.artifact r.output } } :=
      { siblings := hs
        guards := hbefore.guards
        published := by
          refine ⟨node, hkind, ?_, ?_⟩
          · have hmove : w.fs.tree.move r.artifact r.output (r.output ++ []) =
                w.fs.tree (r.artifact ++ []) := FileTree.move_append []
            rw [List.append_nil, List.append_nil] at hmove
            exact hmove.trans hnode
          · exact (hbefore.tree r.output hout).symm.trans hfree }
    exact ⟨.of_before hbefore (.inr hafter), hafter⟩

/-- `CommitStarted` is not the commit yet. -/
theorem runs_commitStarted :
    r.Runs r.Ready (Prog.event .commitStarted : WorldProg Unit) fun _ => r.Ready := by
  have haside : ∀ w : World, r.Aside w
      { w with control := { w.control with events := w.control.events ++ [.commitStarted] } } := by
    intro w
    refine ⟨fun _ _ => rfl, rfl, fun _ => .inl, fun hc => ?_⟩
    rcases List.mem_append.mp hc with hc | hc
    · exact hc
    · cases List.mem_singleton.mp hc
  exact runs_modify Ready.stable (fun w _ => (haside w).step)
    fun w hw => ⟨(haside w).before hw.1, hw.2⟩

/-- `Committed` comes after the commit. -/
theorem runs_committed :
    r.Runs r.After (Prog.event .committed : WorldProg Unit) fun _ => r.After := by
  have hafter : ∀ w : World, r.After w → r.After
      { w with control := { w.control with events := w.control.events ++ [.committed] } } :=
    fun w hw => ⟨hw.siblings, hw.guards, hw.published⟩
  refine runs_modify After.stable (fun w hw => ⟨fun hb => absurd hw hb.not_after, fun _ => ?_⟩) hafter
  exact ⟨hafter w hw, fun _ _ _ hn => hn⟩

/-- What is done after the commit. -/
theorem runs_after (hm : Yields (confined fun _ => False) V m) :
    r.Runs r.After m fun a w => V a ∧ r.After w :=
  runs_aside hm (fun _ => False.elim) After.stable
    (fun _ _ hmoves hw => ((Aside.of_moves (fun _ => False.elim) hmoves).after hw).1)
    fun _ => .inr

/-- What is done before the artifact is made. -/
theorem runs_before (hm : Yields (confined fun _ => False) V m) :
    r.Runs r.Before m fun a w => V a ∧ r.Before w :=
  runs_aside hm (fun _ => False.elim) Before.stable
    (fun _ _ hmoves hw => (Aside.of_moves (fun _ => False.elim) hmoves).before hw)
    fun _ => .inl

/-- Removing an object of the artifact. -/
theorem aside_removeFile {p : Path} (hp : r.Private p) (i : WorldInput) (w : World) :
    r.Aside w (Op.removeFile p i w).2 := by
  unfold Op.removeFile Op.io
  split
  · exact .refl
  · dsimp only
    split
    · exact .refl
    · exact .refl
    · exact ⟨.remove hp, rfl, fun _ => .inl, id⟩

theorem aside_removeDirAll (hs : r.Siblings) (i : WorldInput) (w : World) :
    r.Aside w (Op.removeDirAll r.artifact i w).2 := by
  have hbelow : ∀ q, r.artifact <+: q → r.Private q := fun q hq => ⟨hs, hq⟩
  unfold Op.removeDirAll
  split
  · exact ⟨.prune hbelow, rfl, fun _ => .inl, id⟩
  · split
    · exact ⟨.prune hbelow, rfl, fun _ => .inl, id⟩
    · exact .refl

theorem aside_orDisturbed {d : Disturbance} {op : Op α} {i : WorldInput}
    (h : r.Aside w (op i w).2) : r.Aside w (Op.orDisturbed d op i w).2 := by
  unfold Op.orDisturbed
  dsimp only
  split
  · exact ⟨h.tree, h.others, h.guards, h.silent⟩
  · exact h

/-- What a destructor removes belongs to the artifact. -/
theorem runs_attempted {op : Op α} (h : ∀ i w, r.Aside w (op i w).2) :
    r.Runs r.Sound (attempted op) fun _ => r.Sound :=
  .call Sound.stable fun i w _ hw => ⟨(h i w).step, (h i w).step.sound hw⟩

end

end Route

/-! ## Packing -/

namespace Pack

variable {r : Route}

/-- The temporary path that is asked for is taken only beside the output. -/
theorem yields_chooseTemporaryPath {T : Path → Prop} {req : PackRequest}
    (htemp : req.temporaryPath = some r.artifact) (hout : req.output = r.output) :
    Yields (confined T) (fun temp => temp = r.artifact ∧ r.Siblings) (chooseTemporaryPath req) := by
  unfold chooseTemporaryPath
  rw [htemp]
  show Yields _ _ (validateRequestedTemporaryPath req.output r.artifact)
  rw [hout]
  unfold validateRequestedTemporaryPath
  refine (yields_require _).bind fun _ hparent => (yields_require _).bind fun _ hne => ?_
  refine (yields_require _).bind fun _ hname => .bind (built_reserve _ _) fun free _ => ?_
  refine .bind (built_require _) fun _ _ => .pure ⟨rfl, ?_⟩
  rw [Result.rejectIf_eq_ok] at hparent hne hname
  have hsame : parent? r.artifact = parent? r.output := Decidable.of_not_not hparent
  rw [parent?, if_neg hname] at hsame
  have hout : r.output ≠ [] := by
    intro hnil
    rw [parent?, if_pos hnil] at hsame
    cases hsame
  rw [parent?, if_neg hout] at hsame
  exact ⟨hname, hout, hne, Option.some.inj hsame⟩

theorem runs_stageContainer {R : Reader Key} {req : PackRequest} {prepared : Prepared}
    (hkind : r.kind = .packContainer) (hs : r.Siblings) :
    r.Runs r.Before (stageContainer R req prepared r.artifact) fun _ => r.Ready := by
  have hcreate : r.Runs r.Before (perform (Op.createNew r.artifact)) fun _ => r.Ready := by
    refine Route.runs_make (fun i w e w' hop => Route.createNew_error hop)
      (moves_createNew ⟨hs, List.prefix_refl _⟩) fun i w a w' hop => ?_
    have hf := Route.io_ok hop
    split at hf
    · cases (Prod.mk.inj hf).1
    · obtain rfl := (Prod.mk.inj hf).2
      refine ⟨.file (.own w.nextOwn), ?_, FileTree.put_self⟩
      rw [hkind]
      trivial
  unfold stageContainer
  refine .bind (Route.runs_context hcreate) fun output => ?_
  exact (Route.runs_still (built_fillContainer req prepared _ output)).conseq
    (fun _ h => h) (fun _ _ h => h.2) fun _ _ h => h

theorem runs_publishContainer {req : PackRequest} (hout : req.output = r.output)
    (hs : r.Siblings) :
    r.Runs r.Ready (publishContainer req r.artifact) fun _ => r.After := by
  have hsync : Built (confined fun _ => False) (syncParent r.output.dropLast) :=
    (built_openFile _).bind fun _ => built_sync
  unfold publishContainer
  rw [hout]
  refine .bind (Route.runs_still (built_event (e := .phaseStarted _) rfl)) fun _ => ?_
  refine .assume fun _ => Route.runs_commitStarted.bind fun _ => ?_
  refine .bind (Route.runs_context (Route.runs_rename hs)) fun _ => ?_
  refine .bind (Route.runs_after (Yields.attempt hsync)) fun synced => .assume fun _ => ?_
  cases synced with
  | ok _ => exact Route.runs_committed
  | error e =>
      refine .bind (Route.runs_after (built_event (e := .warning _) rfl)) fun _ => ?_
      exact .assume fun _ => Route.runs_committed

theorem runs_dropTemp (hs : r.Siblings) :
    r.Runs r.Sound (dropTemp r.artifact) fun _ => r.Sound := by
  have hp : r.Private r.artifact := ⟨hs, List.prefix_refl _⟩
  unfold dropTemp
  refine .bind (Route.runs_attempted fun i w => ?_) fun _ => .pure fun _ h => h
  split
  · exact Route.aside_orDisturbed (Route.aside_removeFile hp i w)
  · exact Route.aside_removeFile hp i w

/-- **Packing publishes its container or nothing.** -/
theorem runs_execute {R : Reader Key} {walk : List (Result Path)} {req : PackRequest}
    (hkind : r.kind = .packContainer) (htemp : req.temporaryPath = some r.artifact)
    (hout : req.output = r.output) :
    r.Runs r.Before (execute R walk req) fun _ => r.After := by
  have hpool : Built (confined fun _ => False) (Prog.context
      "Unable to create worker thread pool" (perform Op.sync)) := built_context built_sync
  unfold execute installPool packInner
  refine .bind (Route.runs_before hpool) fun _ => .assume fun _ => ?_
  refine .bind (Route.runs_before (built_prepare R walk req)) fun prepared => .assume fun _ => ?_
  refine .bind (Route.runs_before (yields_chooseTemporaryPath htemp hout)) fun temp =>
    .assume fun ⟨htemp, hs⟩ => ?_
  subst htemp
  refine .onError ((runs_stageContainer hkind hs).bind fun _ => ?_) fun e => runs_dropTemp hs
  exact runs_publishContainer hout hs

end Pack

/-! ## Extraction -/

namespace Extract

variable {r : Route}

/-- The tree is staged at the artifact and installed at the output. -/
def Along (r : Route) (root : SafeRoot) : Prop :=
  root.staging = r.artifact ∧ root.target = r.output

theorem Along.same {root root' : SafeRoot} (h : Along r root) (h' : root.Same root') :
    Along r root' := ⟨h'.1.trans h.1, h'.2.trans h.2⟩

/-- The staging path that is asked for is taken only beside the destination. -/
theorem yields_choose {T : Path → Prop} {os : Platform} :
    Yields (confined T) (fun root => Along r root ∧ r.Siblings)
      (SafeRoot.choose r.output (some r.artifact) os) := by
  unfold SafeRoot.choose
  refine .bind (built_attempted moves_reading) fun found _ => .bind (built_require _) fun _ _ => ?_
  refine (yields_require _).bind fun name hname => ?_
  refine .bind (built_context (built_openVerifiedDirectory _ os)) fun _ _ => ?_
  refine .bind (built_attempted moves_reading) fun found _ => .bind (built_require _) fun _ _ => ?_
  have hstaging : Yields (confined T) (fun a => r.artifact.getLast? = some a ∧ r.Siblings)
      (chooseStagingName r.output name (some r.artifact)) := by
    show Yields _ _ (requestedStagingName r.output r.artifact)
    unfold requestedStagingName
    refine (yields_require _).bind fun _ hparent => (yields_require _).bind fun _ hne => ?_
    refine (yields_require _).bind fun a ha => .bind (built_attempted moves_reading) fun found _ => ?_
    refine .bind (built_require _) fun _ _ => .pure ⟨?_, ?_⟩
    · exact Result.ofOption_eq_ok.mp ha
    · rw [Result.rejectIf_eq_ok] at hparent hne
      rw [not_or, not_not] at hparent
      have hout : r.output ≠ [] := by
        intro hnil
        rw [Result.ofOption_eq_ok, hnil] at hname
        cases hname
      exact ⟨hparent.1, hout, hne, hparent.2⟩
  refine hstaging.bind fun a ⟨ha, hs⟩ => .pure ⟨⟨?_, ?_⟩, hs⟩
  · show r.output.dropLast ++ [a] = r.artifact
    rw [← hs.parent, List.dropLast_append_getLast? a ha]
  · exact List.dropLast_append_getLast? name (Result.ofOption_eq_ok.mp hname)

theorem runs_make {root : SafeRoot} (hkind : r.kind = .extractionTree) (hs : r.Siblings)
    (hroot : Along r root) :
    r.Runs r.Before root.make fun root' w => Along r root' ∧ r.Ready w := by
  have hcreate : r.Runs r.Before (perform (Op.createDir root.staging)) fun _ => r.Ready := by
    rw [hroot.1]
    refine Route.runs_make (fun i w e w' hop => Route.createDir_error hop)
      (moves_createDir ⟨hs, List.prefix_refl _⟩) fun i w a w' hop => ?_
    have hf := Route.io_ok hop
    split at hf
    · cases (Prod.mk.inj hf).1
    · obtain rfl := (Prod.mk.inj hf).2
      refine ⟨.directory, ?_, FileTree.put_self⟩
      rw [hkind]
      trivial
  unfold SafeRoot.make
  refine .bind (Route.runs_context hcreate) fun _ => ?_
  exact (Route.runs_still yields_openStaging).conseq (fun _ h => h)
    (fun root' w h => ⟨hroot.same h.1, h.2⟩) fun _ _ h => h

theorem runs_stageTree {R : Reader Key} {build : Build} {opened : OpenedFile} {progress : ProgressTracker}
    {batchSize : Nat} {root : SafeRoot} (hkind : r.kind = .extractionTree) (hs : r.Siblings)
    (hroot : Along r root) (hplain : progress.reporter.Plain) :
    r.Runs r.Ready (stageTree R build opened progress batchSize root)
      fun root' w => Along r root' ∧ r.Ready w := by
  have hbelow : ∀ p, root.Below p → r.Private p := fun p hp => ⟨hs, hroot.1 ▸ hp⟩
  have hready : ∀ w w', Moves root.Below w w' → r.Ready w → r.Ready w' := by
    rintro w w' hmoves ⟨hbefore, node, hnode, hat⟩
    refine ⟨(Route.Aside.of_moves hbelow hmoves).before hbefore, node, hnode, ?_⟩
    -- the only object of this kind is a directory, which no step removes
    rw [hkind] at hnode
    cases node with
    | directory => exact hmoves.directories _ hat
    | file ino => cases hnode
    | symlink target => cases hnode
    | special => cases hnode
  exact (Route.runs_aside (yields_stageTree hplain) hbelow Route.Ready.stable hready
    fun w hw => .inl hw.1).conseq (fun _ h => h) (fun root' w h => ⟨hroot.same h.1, h.2⟩)
      fun _ _ h => h

theorem runs_commit {root : SafeRoot} {ω : IterOrder} {os : Platform} (hs : r.Siblings)
    (hroot : Along r root) : r.Runs r.Ready (root.commit ω os) fun _ => r.After := by
  have hsyncs : Built (confined fun _ => False)
      ((ω.arrange root.directories.values).forM fun directory =>
        syncDirectory (root.staging ++ directory) os) := .forM fun _ _ => built_syncDirectory _ os
  unfold SafeRoot.commit
  refine .bind (Route.runs_still hsyncs) fun _ => .assume fun _ => ?_
  rw [hroot.1, hroot.2]
  refine .bind (Route.runs_context (Route.runs_rename hs)) fun _ => ?_
  refine .bind (Route.runs_after (Yields.attempt (built_syncDirectory _ os))) fun _ => .assume fun _ => ?_
  exact .pure fun _ h => h

theorem runs_publishTree {root : SafeRoot} {ω : IterOrder} {os : Platform} (hs : r.Siblings)
    (hroot : Along r root) : r.Runs r.Ready (publishTree ω os root) fun _ => r.After := by
  unfold publishTree
  refine .bind (Route.runs_still (built_event (e := .phaseStarted _) rfl)) fun _ => .assume fun _ => ?_
  refine Route.runs_commitStarted.bind fun _ => (runs_commit hs hroot).bind fun warning => ?_
  cases warning with
  | none => exact Route.runs_committed
  | some text =>
      refine .bind (Route.runs_after (built_event (e := .warning _) rfl)) fun _ => ?_
      exact .assume fun _ => Route.runs_committed

theorem runs_dropRoot {root : SafeRoot} (hs : r.Siblings) (hroot : Along r root) :
    r.Runs r.Sound root.dropRoot fun _ => r.Sound := by
  have hread : r.Runs r.Sound (Prog.read World.guards : WorldProg (List Path))
      fun guards w => (∀ p ∈ guards, r.Private p) ∧ r.Sound w :=
    .read Route.Sound.stable (fun w _ => Route.Aside.refl.step) fun w hw =>
      ⟨hw.elim (·.guards) (·.guards), hw⟩
  unfold SafeRoot.dropRoot
  refine hread.bind fun guards => .assume fun hguards => ?_
  refine .bind (S := fun _ => r.Sound) (Q := fun _ => r.Sound) ?_ fun _ => ?_
  · refine .forM (I := fun _ => r.Sound) fun pre p post heq => ?_
    refine .bind (Route.runs_attempted fun i w => ?_) fun _ => .pure fun _ h => h
    refine Route.aside_removeFile (hguards p ?_) i w
    rw [heq]
    exact List.mem_append_right pre List.mem_cons_self
  · refine .bind (Route.runs_attempted fun i w => ?_) fun _ => .pure fun _ h => h
    rw [hroot.1]
    exact Route.aside_orDisturbed (Route.aside_removeDirAll hs i w)

/-- **Extraction publishes its tree or nothing.** -/
theorem runs_execute {R : Reader Key} {req : ExtractRequest} (hkind : r.kind = .extractionTree)
    (hstaging : req.stagingPath = some r.artifact) (hout : req.output = r.output) :
    r.Runs r.Before (execute R req) fun _ => r.After := by
  have hpool : Built (confined fun _ => False) (Prog.context
      "Unable to create worker thread pool" (perform Op.sync)) := built_context built_sync
  unfold execute installPool extractV2Inner
  refine .bind (Route.runs_before hpool) fun _ => .assume fun _ => ?_
  refine .bind (Route.runs_before (yields_openInput R req)) fun input => .assume fun hplain => ?_
  obtain ⟨opened, build, progress⟩ := input
  rw [hstaging, hout]
  refine .bind (Route.runs_before yields_choose) fun root => .assume fun ⟨hroot, hs⟩ => ?_
  refine (runs_make hkind hs hroot).bind fun root' => .assume fun hroot' => ?_
  refine .onError (.bind (runs_stageTree hkind hs hroot' hplain) fun root'' => ?_)
    fun e => runs_dropRoot hs hroot'
  refine .assume fun hroot'' => ?_
  exact runs_publishTree hs hroot''

end Extract

end CipherFS
