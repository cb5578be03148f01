import CipherFS.Core.Publication

/-!
# Steps that come too late

A process that is killed is there until the calls it is in have ended. By then its
artifact may have been removed, and anything else may have happened to the tree.
Still no step loses anything of a published result, and the result is published
only from beside the output.
-/

namespace CipherFS

open WorldProg Prog V2

variable {α β Key : Type} {w w' : World} {V : α → Prop}

/-- Nothing is assumed of the others but that they leave the memory of the run. -/
def World.outliving : Rely World := ⟨fun w w' => w'.guards = w.guards, fun _ => rfl,
  fun h h' => h'.trans h⟩

namespace Route

variable {r : Route}

/-- What the destructors of the run remove belongs to the artifact. -/
def Guarded (r : Route) (w : World) : Prop := ∀ p ∈ w.guards, r.Private p

/-- A step from a state of which only the guards are known. -/
structure LateStep (r : Route) (w w' : World) : Prop where
  guards : r.Guarded w → r.Guarded w'
  after : r.After w → r.After w' ∧ Keeps r.output w w'
  published : r.Published w' → r.Published w ∨ r.Siblings

theorem Guarded.stable : World.outliving.Stable r.Guarded :=
  fun _ _ h (hrel : _ = _) p hp => h p (hrel ▸ hp)

namespace LateStep

theorem of_aside (h : r.Aside w w') : r.LateStep w w' where
  guards hw p hp := (h.guards p hp).elim (hw p) id
  after := h.after
  published := by
    rintro ⟨node, hkind, hnode, hnone⟩
    have hout : ¬r.Private r.output := fun hp => hp.not_output (List.prefix_refl _)
    exact .inl ⟨node, hkind, (h.tree _ hout).symm.trans hnode, h.others ▸ hnone⟩

theorem refl : r.LateStep w w := .of_aside .refl

/-- A step outside the file system. -/
theorem of_tree (htree : w'.fs.tree = w.fs.tree) (hothers : w'.others = w.others)
    (hguards : w'.guards = w.guards) : r.LateStep w w' where
  guards hw p hp := hw p (hguards ▸ hp)
  after := by
    rintro ⟨hs, hprivate, node, hkind, hnode, hnone⟩
    refine ⟨⟨hs, fun p hp => hprivate p (hguards ▸ hp), node, hkind, ?_, hothers ▸ hnone⟩, ?_⟩
    · rw [htree, hnode]
    · intro q node _ hq
      rw [htree, hq]
  published := by
    rintro ⟨node, hkind, hnode, hnone⟩
    exact .inl ⟨node, hkind, htree ▸ hnode, hothers ▸ hnone⟩

/-- An error is remembered. -/
theorem failed (h : r.LateStep w w') (failures : List Error) :
    r.LateStep w { w' with failures := failures } where
  guards := h.guards
  after ha := by
    obtain ⟨hafter, hkeeps⟩ := h.after ha
    exact ⟨⟨hafter.siblings, hafter.guards, hafter.published⟩, hkeeps⟩
  published := h.published

/-- A result that such a step brings is as good as one that was there. -/
theorem settled (h : r.LateStep w w') (hguards : r.Guarded w) (hw : r.Published w → r.After w)
    (hp : r.Published w') : r.After w' := by
  rcases h.published hp with hbefore | hs
  · exact (h.after (hw hbefore)).1
  · exact ⟨hs, h.guards hguards, hp⟩

end LateStep

/-! ## Programs -/

/-- `m` takes only such steps. -/
abbrev RunsLate (r : Route) (m : WorldProg α) (V : α → Prop) : Prop :=
  Triple (fun _ => True) World.outliving r.LateStep r.Guarded m (fun a w => V a ∧ r.Guarded w)
    fun _ => r.Guarded

theorem RunsLate.bind {m : WorldProg α} {f : α → WorldProg β} {U : β → Prop} (hm : r.RunsLate m V)
    (hf : ∀ a, V a → r.RunsLate (f a) U) : r.RunsLate (m >>= f) U :=
  Triple.bind hm fun a => .assume (hf a)

/-- Where a program of steps aside is, does not matter to it. -/
theorem late_aside {m : WorldProg α} {T : Path → Prop} (hm : Yields (confined T) V m)
    (hT : ∀ p, T p → r.Private p) : r.RunsLate m V := by
  let M : Rely World := ⟨fun w w' => r.Guarded w → r.Guarded w', fun _ => id,
    fun h h' hw => h' (h hw)⟩
  have htriple : Triple (fun _ : WorldInput => True) World.outliving r.LateStep r.Guarded m
      (fun a w => V a ∧ r.Guarded w) fun _ w => True ∧ r.Guarded w := by
    refine hm.triple_within (M := M) (E := fun _ _ => True) (fun w w' h hw => ?_)
      (fun w w' h => h.guards) (fun w w' hw h => h hw) (fun _ _ _ _ _ => trivial) ?_
      (fun _ _ _ _ _ => trivial) fun _ _ _ _ => trivial
    · exact Guarded.stable w w' hw h
    · intro γ f hf i w res w' _ _ hstep
      have haside := Aside.of_moves hT (hf i w res w' hstep).1
      exact ⟨.of_aside haside, fun _ _ => trivial⟩
  exact htriple.conseq (fun _ h => h) (fun _ _ h => h) fun _ w h => h.2

theorem late_perform {op : Op α} (h : ∀ i w, r.LateStep w (op i w).2) :
    r.RunsLate (perform op) fun _ => True := by
  refine .call Guarded.stable fun i w _ hw => ?_
  have hlate := h i w
  rcases hop : op i w with ⟨e | a, w'⟩
  · rw [hop] at hlate
    exact ⟨hlate.failed _, hlate.guards hw⟩
  · rw [hop] at hlate
    exact ⟨hlate, trivial, hlate.guards hw⟩

theorem late_attempted {op : Op α} (h : ∀ i w, r.Aside w (op i w).2) :
    r.RunsLate (attempted op) fun _ => True :=
  .call Guarded.stable fun i w _ hw =>
    ⟨.of_aside (h i w), trivial, (LateStep.of_aside (h i w)).guards hw⟩

theorem late_event (e : OperationEvent) :
    r.RunsLate (Prog.event e : WorldProg Unit) fun _ => True :=
  .modify Guarded.stable (fun _ _ => .of_tree rfl rfl rfl) fun _ hw => ⟨trivial, hw⟩

theorem late_context {m : WorldProg α} {text : String} (h : r.RunsLate m V) :
    r.RunsLate (Prog.context text m) V := .mapError h

/-- The commit replaces nothing, whenever it comes. -/
theorem late_rename (hs : r.Siblings) :
    r.RunsLate (perform (Op.renameNoReplace r.artifact r.output)) fun _ => True := by
  refine late_perform fun i w => ?_
  unfold Op.renameNoReplace Op.io
  split
  · exact .refl
  · dsimp only
    split
    · exact .refl
    · exact .refl
    · rename_i hvacant
      have hfree := (vacant_eq_ok.mp hvacant).1
      refine ⟨id, fun ha => ?_, fun _ => .inr hs⟩
      obtain ⟨node, -, hnode, -⟩ := ha.published
      rw [hfree] at hnode
      cases hnode

end Route

/-! ## Packing -/

namespace Pack

variable {r : Route}

theorem late_publishContainer {req : PackRequest} (hout : req.output = r.output)
    (hs : r.Siblings) : r.RunsLate (publishContainer req r.artifact) fun _ => True := by
  have hsync : Built (confined fun _ => False) (syncParent r.output.dropLast) :=
    (built_openFile _).bind fun _ => built_sync
  unfold publishContainer
  rw [hout]
  refine (Route.late_event _).bind fun _ _ => (Route.late_event _).bind fun _ _ => ?_
  refine (Route.late_context (Route.late_rename hs)).bind fun _ _ => ?_
  refine (Route.late_aside (Yields.attempt hsync) fun _ => False.elim).bind fun synced _ => ?_
  cases synced with
  | ok _ => exact Route.late_event _
  | error e => exact (Route.late_event _).bind fun _ _ => Route.late_event _

theorem late_dropTemp (hs : r.Siblings) : r.RunsLate (dropTemp r.artifact) fun _ => True := by
  have hp : r.Private r.artifact := ⟨hs, List.prefix_refl _⟩
  unfold dropTemp
  refine (Route.late_attempted fun i w => ?_).bind fun _ _ => .pure fun _ h => ⟨trivial, h⟩
  split
  · exact Route.aside_orDisturbed (Route.aside_removeFile hp i w)
  · exact Route.aside_removeFile hp i w

theorem late_stageContainer {R : Reader Key} {req : PackRequest} {prepared : Prepared}
    (hs : r.Siblings) : r.RunsLate (stageContainer R req prepared r.artifact) fun _ => True := by
  have hcreate : Built (confined r.Private) (perform (Op.createNew r.artifact)) :=
    built_perform (moves_createNew ⟨hs, List.prefix_refl _⟩)
  unfold stageContainer
  refine (Route.late_aside (built_context hcreate) fun _ hp => hp).bind fun output _ => ?_
  exact Route.late_aside (built_fillContainer req prepared _ output) fun _ => False.elim

/-- **Whatever becomes of its artifact, packing loses nothing of a published result.** -/
theorem late_execute {R : Reader Key} {walk : List (Result Path)} {req : PackRequest}
    (htemp : req.temporaryPath = some r.artifact) (hout : req.output = r.output) :
    r.RunsLate (execute R walk req) fun _ => True := by
  have hnone : ∀ p, (fun _ : Path => False) p → r.Private p := fun _ => False.elim
  have hpool : Built (confined fun _ => False) (Prog.context
      "Unable to create worker thread pool" (perform Op.sync)) := built_context built_sync
  unfold execute installPool packInner
  refine (Route.late_aside hpool hnone).bind fun _ _ => ?_
  refine (Route.late_aside (built_prepare R walk req) hnone).bind fun prepared _ => ?_
  refine (Route.late_aside (yields_chooseTemporaryPath htemp hout) hnone).bind
    fun temp ⟨htemp, hs⟩ => ?_
  subst htemp
  refine .onError ((late_stageContainer hs).bind fun _ _ => late_publishContainer hout hs)
    fun e => ?_
  exact (late_dropTemp hs).conseq (fun _ h => h) (fun _ _ h => h.2) fun _ _ h => h

end Pack

/-! ## Extraction -/

namespace Extract

variable {r : Route}

theorem late_make {root : SafeRoot} (hs : r.Siblings) (hroot : Along r root) :
    r.RunsLate root.make (Along r) := by
  have hcreate : Built (confined r.Private) (perform (Op.createDir root.staging)) := by
    rw [hroot.1]
    exact built_perform (moves_createDir ⟨hs, List.prefix_refl _⟩)
  unfold SafeRoot.make
  refine (Route.late_aside (built_context hcreate) fun _ hp => hp).bind fun _ _ => ?_
  exact (Route.late_aside yields_openStaging fun _ => False.elim).conseq (fun _ h => h)
    (fun _ _ h => ⟨hroot.same h.1, h.2⟩) fun _ _ h => h

theorem late_publishTree {root : SafeRoot} {ω : IterOrder} {os : Platform} (hs : r.Siblings)
    (hroot : Along r root) : r.RunsLate (publishTree ω os root) fun _ => True := by
  have hsyncs : Built (confined fun _ => False)
      ((ω.arrange root.directories.values).forM fun directory =>
        syncDirectory (root.staging ++ directory) os) := .forM fun _ _ => built_syncDirectory _ os
  have hcommit : r.RunsLate (root.commit ω os) fun _ => True := by
    unfold SafeRoot.commit
    refine (Route.late_aside hsyncs fun _ => False.elim).bind fun _ _ => ?_
    rw [hroot.1, hroot.2]
    refine (Route.late_context (Route.late_rename hs)).bind fun _ _ => ?_
    refine (Route.late_aside (Yields.attempt (built_syncDirectory _ os))
      fun _ => False.elim).bind fun _ _ => ?_
    exact .pure fun _ h => ⟨trivial, h⟩
  unfold publishTree
  refine (Route.late_event _).bind fun _ _ => (Route.late_event _).bind fun _ _ => ?_
  refine hcommit.bind fun warning _ => ?_
  cases warning with
  | none => exact Route.late_event _
  | some text => exact (Route.late_event _).bind fun _ _ => Route.late_event _

theorem late_dropRoot {root : SafeRoot} (hs : r.Siblings) (hroot : Along r root) :
    r.RunsLate root.dropRoot fun _ => True := by
  have hread : r.RunsLate (Prog.read World.guards : WorldProg (List Path))
      fun guards => ∀ p ∈ guards, r.Private p :=
    .read Route.Guarded.stable (fun _ _ => .refl) fun _ hw => ⟨hw, hw⟩
  unfold SafeRoot.dropRoot
  refine hread.bind fun guards hguards => ?_
  refine Triple.bind (Q := fun _ => r.Guarded) ?_ fun _ => ?_
  · refine .forM (I := fun _ => r.Guarded) fun pre p post heq => ?_
    have hp : r.Private p := hguards p (heq ▸ List.mem_append_right pre List.mem_cons_self)
    refine Triple.bind (Route.late_attempted fun i w => Route.aside_removeFile hp i w) fun _ => ?_
    exact .pure fun _ h => h.2
  · refine (Route.late_attempted fun i w => ?_).bind fun _ _ => .pure fun _ h => ⟨trivial, h⟩
    rw [hroot.1]
    exact Route.aside_orDisturbed (Route.aside_removeDirAll hs i w)

/-- **Whatever becomes of its artifact, extraction loses nothing of a published
result.** -/
theorem late_execute {R : Reader Key} {req : ExtractRequest}
    (hstaging : req.stagingPath = some r.artifact) (hout : req.output = r.output) :
    r.RunsLate (execute R req) fun _ => True := by
  have hnone : ∀ p, (fun _ : Path => False) p → r.Private p := fun _ => False.elim
  have hpool : Built (confined fun _ => False) (Prog.context
      "Unable to create worker thread pool" (perform Op.sync)) := built_context built_sync
  unfold execute installPool extractV2Inner
  refine (Route.late_aside hpool hnone).bind fun _ _ => ?_
  refine (Route.late_aside (yields_openInput R req) hnone).bind fun input hplain => ?_
  obtain ⟨opened, build, progress⟩ := input
  rw [hstaging, hout]
  refine (Route.late_aside yields_choose hnone).bind fun root ⟨hroot, hs⟩ => ?_
  refine (late_make hs hroot).bind fun root' hroot' => ?_
  have hbelow : ∀ p, root'.Below p → r.Private p := fun p hp => ⟨hs, hroot'.1 ▸ hp⟩
  refine .onError ((Route.late_aside (yields_stageTree hplain) hbelow).bind fun root'' hsame => ?_)
    fun e => ?_
  · exact late_publishTree hs (hroot'.same hsame)
  · exact (late_dropRoot hs hroot').conseq (fun _ h => h) (fun _ _ h => h.2) fun _ _ h => h

end Extract

end CipherFS
