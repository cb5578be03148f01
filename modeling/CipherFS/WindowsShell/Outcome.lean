import CipherFS.Core.LateSteps
import CipherFS.WindowsShell.Session

/-!
# The outcome that the parent announces

The parent concludes from a stream that may be cut off anywhere whether the
output has been published. What it has read was written, what was written of a
commit came after it, and its cleanup stays with the artifact; so does what a
killed worker still does meanwhile.
-/

namespace CipherFS.WindowsShell

open WorldProg Prog

variable {w w' : World}

/-! ## The cleanup -/

/-- Nothing has changed but that objects at and below a path may be gone. -/
def Removes (p : Path) (w w' : World) : Prop :=
  ∃ tree, w' = { w with fs := { w.fs with tree := tree } } ∧
    ∀ q, tree q = w.fs.tree q ∨ p <+: q ∧ tree q = none

theorem Removes.refl (p : Path) (w : World) : Removes p w w := ⟨w.fs.tree, rfl, fun _ => .inl rfl⟩

theorem removes_removeFile (p : Path) (i : WorldInput) (w : World) :
    Removes p w (Op.removeFile p i w).2 := by
  unfold Op.removeFile Op.io
  split
  · exact .refl p w
  · dsimp only
    split
    · exact .refl p w
    · exact .refl p w
    · refine ⟨_, rfl, fun q => ?_⟩
      by_cases hq : q = p
      · exact .inr ⟨hq ▸ List.prefix_refl _, hq ▸ FileTree.remove_self⟩
      · exact .inl (FileTree.remove_of_ne hq)

theorem removes_removeDirAll (p : Path) (i : WorldInput) (w : World) :
    Removes p w (Op.removeDirAll p i w).2 := by
  have hprune : ∀ gone : Path → Bool, ∀ q, w.fs.tree.prune p gone q = w.fs.tree q ∨
      p <+: q ∧ w.fs.tree.prune p gone q = none := by
    intro gone q
    by_cases hq : p <+: q ∧ gone q = true
    · exact .inr ⟨hq.1, if_pos hq⟩
    · exact .inl (if_neg hq)
  unfold Op.removeDirAll
  split
  · exact ⟨_, rfl, hprune _⟩
  · split
    · exact ⟨_, rfl, hprune _⟩
    · exact .refl p w

/-- Nothing is assumed of the others. -/
def anything : Rely World := ⟨fun _ _ => True, fun _ => trivial, fun _ _ => trivial⟩

/-- What is left of the cleanup removes nothing else, whatever happens. -/
abbrev Harmless (p : Path) (t : Task World WorldInput Error) (w : World) : Prop :=
  t.Safe (fun _ => True) anything (Removes p) (fun _ => True) (fun _ _ => True) w

theorem harmless_cleanupPath (p : Path) (w : World) : Harmless p (cleanupPath p).task w := by
  have hcall : ∀ {α : Type} {op : Op α}, (∀ i w, Removes p w (op i w).2) →
      Triple (fun _ => True) anything (Removes p) (fun _ => True) (attempted op)
        (fun _ _ => True) fun _ _ => True :=
    fun h => .call (fun _ _ _ _ => trivial) fun i w _ _ => ⟨h i w, trivial⟩
  have hlook : ∀ i w, Removes p w (Op.symlinkMetadata p i w).2 := by
    intro i w
    unfold Op.symlinkMetadata Op.reading Op.io
    split <;> exact .refl p w
  have htriple : Triple (fun _ : WorldInput => True) anything (Removes p) (fun _ => True)
      (cleanupPath p) (fun _ _ => True) fun _ _ => True := by
    unfold cleanupPath
    refine .bind (hcall hlook) fun found => ?_
    split
    · exact .bind (hcall (removes_removeFile p)) fun _ => .pure fun _ _ => trivial
    · exact .bind (hcall (removes_removeDirAll p)) fun _ => .pure fun _ _ => trivial
    · exact .pure fun _ _ => trivial
  exact htriple.safe (fun _ _ _ _ => trivial) (fun _ _ _ _ _ => trivial) trivial

/-- The cleanup never waits for anything. -/
theorem willing_cleanupPath (p : Path) : (cleanupPath p).task.Willing fun _ => True := by
  have hbuilt : Built Yields.accepting (cleanupPath p) := by
    unfold cleanupPath
    refine .bind (.call fun _ _ => rfl) fun found => ?_
    split
    · exact .bind (.call fun _ _ => rfl) fun _ => .pure _
    · exact .bind (.call fun _ _ => rfl) fun _ => .pure _
    · exact .pure _
  have : Nonempty WorldInput := ⟨⟨none, 0, fun _ => false, fun _ => 0, 0⟩⟩
  exact hbuilt.willing (fun _ => trivial) fun _ => trivial

/-- The cleanup leaves what has been published. -/
theorem after_removes {r : Route} (h : r.After w) (hr : Removes r.artifact w w') :
    r.After w' ∧ Keeps r.output w w' := by
  obtain ⟨tree, rfl, htree⟩ := hr
  have hkeeps : Keeps r.output w { w with fs := { w.fs with tree := tree } } := by
    intro q node hq hnode
    rcases htree q with heq | ⟨hbelow, -⟩
    · exact heq.trans hnode
    · exact absurd hbelow (h.siblings.apart hq)
  obtain ⟨node, hkind, hnode, hnone⟩ := h.published
  exact ⟨⟨h.siblings, h.guards, node, hkind, hkeeps _ node (List.prefix_refl _) hnode, hnone⟩, hkeeps⟩

theorem published_of_removes {r : Route} (hr : Removes r.artifact w w') (h : r.Published w') :
    r.Published w := by
  obtain ⟨tree, rfl, htree⟩ := hr
  obtain ⟨node, hkind, hnode, hnone⟩ := h
  rcases htree r.output with heq | ⟨-, hgone⟩
  · exact ⟨node, hkind, heq.symm.trans hnode, hnone⟩
  · rw [show tree r.output = some node from hnode] at hgone
    cases hgone

/-! ## What the parent may conclude -/

/-- The events that tell of a published result. -/
def WorkerEvent.TellsOfResult (event : WorkerEvent) : Prop :=
  event = .committed ∨ event = .succeeded

/-- The parent has heard of a published result and has not announced it. -/
def RunEvents.Trusts : RunEvents → Prop
  | .reading committed => committed = true
  | .ended result | .closingInput result | .takingChild result | .waiting result => result = .ok ()
  | .cleaning _ | .finished => False

namespace Session

/-- The worker keeps to its route. -/
abbrev OnRoute (r : Route) (t : Task World WorldInput Error) (w : World) : Prop :=
  t.Safe (fun _ => True) World.sharing r.Step (fun w => r.After w) (fun _ => r.Sound) w

/-- The worker loses nothing of a published result, wherever its artifact is. -/
abbrev OnLateRoute (r : Route) (t : Task World WorldInput Error) (w : World) : Prop :=
  t.Safe (fun _ => True) World.outliving r.LateStep r.Guarded (fun _ => r.Guarded) w

/-- What holds throughout: the worker is on its route as long as the parent reads,
the stream tells of a result only when it is there, and so does the parent. -/
structure Truthful (K : FrameCodec) (r : Route) (s : Session) : Prop where
  orderly : s.op.Orderly
  harmless : Harmless r.artifact s.cleanup s.world
  willing : s.cleanup.Willing fun _ => True
  working : s.op.Reading → s.op.alive = true → s.concluded = false →
    OnRoute r s.worker s.world ∧ r.Sound s.world
  late : s.op.alive = true → s.concluded = false →
    OnLateRoute r s.worker s.world ∧ r.Guarded s.world
  stream : ∀ committed, s.op.events = .reading committed → ∃ events,
    s.pipe ++ s.buffer = K.stream events ∧ ∀ e ∈ events, e.TellsOfResult → r.After s.world
  verdict : s.op.events.Trusts → r.After s.world
  announced : .finished (.ok ()) ∈ s.op.queue → r.After s.world
  settled : r.Published s.world → r.After s.world

variable {K : FrameCodec} {r : Route} {s s' : Session} {a : Action}

/-- The world moves on, and the result stays. -/
theorem Truthful.moved (h : Truthful K r s) {world : World}
    (worker cleanup : Task World WorldInput Error) (events : List WorkerEvent)
    (hafter : r.After s.world → r.After world) (hsettled : r.Published world → r.After world)
    (hevents : s.op.Reading → ∀ e ∈ events, e.TellsOfResult → r.After world)
    (hworking : s.op.Reading → s.op.alive = true → s.concluded = false →
      OnRoute r worker world ∧ r.Sound world)
    (hlate : s.op.alive = true → s.concluded = false →
      OnLateRoute r worker world ∧ r.Guarded world)
    (hharmless : Harmless r.artifact cleanup world) (hwilling : cleanup.Willing fun _ => True) :
    Truthful K r { s with
      worker, world, cleanup
      buffer := s.buffer ++ K.stream events } where
  orderly := h.orderly
  harmless := hharmless
  willing := hwilling
  working := hworking
  late := hlate
  stream committed hreading := by
    obtain ⟨before, hstream, htells⟩ := h.stream committed hreading
    refine ⟨before ++ events, ?_, fun e he ht => ?_⟩
    · show s.pipe ++ (s.buffer ++ K.stream events) = _
      rw [← List.append_assoc, hstream, FrameCodec.stream_append]
    · rcases List.mem_append.mp he with he | he
      · exact hafter (htells e he ht)
      · exact hevents ⟨committed, hreading⟩ e he ht
  verdict ht := hafter (h.verdict ht)
  announced hf := hafter (h.announced hf)
  settled := hsettled

/-- The parent moves on. -/
theorem Truthful.judged (h : Truthful K r s) {op : Operation} {pipe : Bytes}
    (horderly : op.Orderly) (halive : op.alive = true → s.op.alive = true)
    (hreading : op.Reading → s.op.Reading)
    (hstream : ∀ committed, op.events = .reading committed → ∃ events,
      pipe ++ s.buffer = K.stream events ∧ ∀ e ∈ events, e.TellsOfResult → r.After s.world)
    (hverdict : op.events.Trusts → r.After s.world)
    (hannounced : .finished (.ok ()) ∈ op.queue → r.After s.world) :
    Truthful K r { s with op, pipe } where
  orderly := horderly
  harmless := h.harmless
  willing := h.willing
  working hr ha hc := h.working (hreading hr) (halive ha) hc
  late ha hc := h.late (halive ha) hc
  stream := hstream
  verdict := hverdict
  announced := hannounced
  settled := h.settled

/-! ### Steps -/

/-- What the worker reports of its commit comes after it. -/
theorem after_of_reported (hw' : r.Sound w') {e : WorkerEvent} (he : e ∈ reported w w')
    (ht : e.TellsOfResult) : r.After w' := by
  obtain ⟨event, hevent, heq⟩ := List.mem_filterMap.mp he
  rcases ht with rfl | rfl
  · obtain rfl := reportEvent_committed heq
    rcases hw' with hbefore | hafter
    · exact absurd (List.mem_of_mem_drop hevent) hbefore.silent
    · exact hafter
  · exact absurd heq reportEvent_succeeded

theorem Truthful.worker {p : Pick WorldInput} (h : Truthful K r s)
    (hstep : s.step K (.worker p) = some s') :
    Truthful K r s' ∧ (r.After s.world → r.After s'.world ∧ Keeps r.output s.world s'.world) := by
  rw [step] at hstep
  split at hstep
  · rename_i hrun
    obtain ⟨⟨worker, world⟩, hworker, rfl⟩ := Option.map_eq_some_iff.mp hstep
    obtain ⟨hroute, hguarded⟩ := h.late hrun.1 hrun.2
    obtain ⟨hguarantee, hleft⟩ := Task.Safe.step hroute p.uses_true hworker
    have hlate : r.LateStep s.world world := by
      rcases hguarantee with rfl | hg
      · exact .refl
      · exact hg
    -- as long as the parent reads, nobody has touched the artifact
    have hreads : s.op.Reading → OnRoute r worker world ∧ r.Sound world := by
      intro hreading
      obtain ⟨hroute, hsound⟩ := h.working hreading hrun.1 hrun.2
      obtain ⟨hguarantee, hleft⟩ := Task.Safe.step hroute p.uses_true hworker
      rcases hguarantee with rfl | hg
      · exact ⟨hleft, hsound⟩
      · exact ⟨hleft, hg.sound hsound⟩
    refine ⟨h.moved worker s.cleanup _ (fun ha => (hlate.after ha).1)
      (hlate.settled hguarded h.settled)
      (fun hreading e he ht => after_of_reported (hreads hreading).2 he ht)
      (fun hreading _ _ => hreads hreading) (fun _ _ => ⟨hleft, hlate.guards hguarded⟩) ?_
      h.willing, hlate.after⟩
    exact Task.Safe.rely h.harmless trivial
  · cases hstep

theorem Truthful.env {act : EnvAction} (h : Truthful K r s)
    (hstep : s.step K (.env act) = some s') :
    Truthful K r s' ∧ (r.After s.world → r.After s'.world ∧ Keeps r.output s.world s'.world) := by
  obtain ⟨world, hworld, rfl⟩ := Option.map_eq_some_iff.mp hstep
  have hrel : World.sharing.rel s.world world := Relation.ReflTransGen.single ⟨act, hworld⟩
  have hsettled : r.Published world → r.After world := fun hp => Route.After.stable _ _
    (h.settled (hp.of_interferes (World.interferes_of_env hworld))) hrel
  have houtliving : World.outliving.rel s.world world := (World.interferes_of_env hworld).memory.1
  have hmoved := h.moved s.worker s.cleanup [] (Route.After.stable _ _ · hrel) hsettled nofun
    (fun hr ha hc => ⟨(h.working hr ha hc).1.rely hrel,
      Route.Sound.stable _ _ (h.working hr ha hc).2 hrel⟩)
    (fun ha hc => ⟨(h.late ha hc).1.rely houtliving,
      Route.Guarded.stable _ _ (h.late ha hc).2 houtliving⟩)
    (Task.Safe.rely h.harmless trivial) h.willing
  refine ⟨?_, fun ha => ⟨Route.After.stable _ _ ha hrel, Keeps.of_sharing r.output hrel⟩⟩
  rwa [FrameCodec.stream, List.flatMap_nil, List.append_nil] at hmoved

theorem Truthful.cleanup {p : Pick WorldInput} (h : Truthful K r s)
    (hstep : s.step K (.cleanup p) = some s') :
    Truthful K r s' ∧ (r.After s.world → r.After s'.world ∧ Keeps r.output s.world s'.world) ∧
      Removes r.artifact s.world s'.world := by
  rw [step] at hstep
  split at hstep
  · rename_i error hcleaning
    obtain ⟨⟨cleanup, world⟩, hcleanup, rfl⟩ := Option.map_eq_some_iff.mp hstep
    obtain ⟨hguarantee, hleft⟩ := Task.Safe.step h.harmless p.uses_true hcleanup
    have hremoves : Removes r.artifact s.world world := by
      rcases hguarantee with rfl | hg
      · exact .refl _ _
      · exact hg
    have houtliving : World.outliving.rel s.world world := by
      obtain ⟨tree, rfl, -⟩ := hremoves
      rfl
    have hsettled : r.Published world → r.After world := fun hp =>
      (after_removes (h.settled (published_of_removes hremoves hp)) hremoves).1
    have hmoved := h.moved s.worker cleanup [] (fun ha => (after_removes ha hremoves).1) hsettled nofun
      (fun ⟨_, hreading⟩ => nomatch hcleaning.symm.trans hreading)
      (fun ha hc => ⟨(h.late ha hc).1.rely houtliving,
        Route.Guarded.stable _ _ (h.late ha hc).2 houtliving⟩)
      hleft (h.willing.step hcleanup)
    rw [FrameCodec.stream, List.flatMap_nil, List.append_nil] at hmoved
    exact ⟨hmoved, fun ha => after_removes ha hremoves, hremoves⟩
  · cases hstep

/-- The worker ends well only with its result published. -/
theorem Truthful.conclude (h : Truthful K r s) (hstep : s.step K .conclude = some s') :
    Truthful K r s' ∧ s'.world = s.world := by
  rw [step] at hstep
  split at hstep
  · rename_i hrun
    obtain ⟨result, hresult, rfl⟩ := Option.map_eq_some_iff.mp hstep
    have hterminal : s.op.Reading →
        ∀ e ∈ (terminal result).toList, e.TellsOfResult → r.After s.world := by
      intro hreading e he ht
      obtain ⟨hroute, -⟩ := h.working hreading (s.op.alive_of_running hrun.1) hrun.2
      have heq := Option.mem_toList.mp he
      rcases result with error | ⟨⟨⟩⟩
      · have hfailed : ∀ kind message, e ≠ .failed kind message := by
          rintro kind message rfl
          rcases ht with ht | ht <;> cases ht
        rw [terminal] at heq
        split at heq
        · cases heq
        · exact absurd (Option.some.inj heq).symm (hfailed _ _)
      · unfold result? at hresult
        split at hresult
        · rename_i hdone
          rw [hdone] at hroute
          exact Task.Safe.of_done hroute
        · cases hresult
        · cases hresult
    have hmoved := h.moved s.worker s.cleanup _ id h.settled hterminal h.working h.late h.harmless
      h.willing
    exact ⟨{ hmoved with working := nofun, late := nofun }, rfl⟩
  · cases hstep

theorem Truthful.flush {n : Nat} (h : Truthful K r s) (hstep : s.step K (.flush n) = some s') :
    Truthful K r s' ∧ s'.world = s.world := by
  rw [step] at hstep
  split at hstep
  · obtain rfl := Option.some.inj hstep
    refine ⟨{ h with stream := fun committed hreading => ?_ }, rfl⟩
    obtain ⟨events, hstream, htells⟩ := h.stream committed hreading
    refine ⟨events, ?_, htells⟩
    rw [List.append_assoc, List.take_append_drop, hstream]
  · cases hstep

theorem Truthful.exit (h : Truthful K r s) (hstep : s.step K .exit = some s') :
    Truthful K r s' ∧ s'.world = s.world := by
  rw [step] at hstep
  split at hstep
  · obtain rfl := Option.some.inj hstep
    exact ⟨h.judged h.orderly.exit nofun id h.stream h.verdict h.announced, rfl⟩
  · cases hstep

theorem Truthful.forceClose (h : Truthful K r s) (hstep : s.step K .forceClose = some s') :
    Truthful K r s' ∧ s'.world = s.world := by
  rw [step] at hstep
  split at hstep
  · obtain rfl := Option.some.inj hstep
    obtain ⟨-, hevents, hqueue, halive, -⟩ := Operation.kill_fields s.op
    refine ⟨h.judged h.orderly.kill (halive ▸ id) (fun ⟨committed, hreading⟩ => ?_)
      (hevents ▸ h.stream) (hevents ▸ h.verdict) (hqueue ▸ h.announced), rfl⟩
    exact ⟨committed, hevents ▸ hreading⟩
  · cases hstep

/-- **A frame, or the end of the stream, leads to a sound verdict.** -/
theorem Truthful.receive {frame : Frame} {op : Operation} {pipe : Bytes} (h : Truthful K r s)
    (hreceive : s.op.receive frame = some op)
    (hframe : ∀ event, frame = .event event → ∃ committed, s.op.events = .reading committed ∧
      (event.TellsOfResult → r.After s.world) ∧ ∃ events,
        pipe ++ s.buffer = K.stream events ∧ ∀ e ∈ events, e.TellsOfResult → r.After s.world) :
    Truthful K r { s with op, pipe } := by
  have horderly := h.orderly.receive hreceive
  unfold Operation.receive at hreceive
  split at hreceive
  · rename_i committed hreading
    obtain rfl := Option.some.inj hreceive
    obtain ⟨hqueue, -⟩ := Operation.queue_onFrame s.op committed frame
    obtain ⟨-, hcases⟩ := Operation.events_onFrame s.op committed frame
    have hcommitted : committed = true → r.After s.world := fun hc =>
      h.verdict (by rw [hreading]; exact hc)
    -- the loop goes on only behind an event
    have hstream : ∀ c, (s.op.onFrame committed frame).events = .reading c → ∃ events,
        pipe ++ s.buffer = K.stream events ∧ ∀ e ∈ events, e.TellsOfResult → r.After s.world := by
      intro c hc
      cases frame with
      | event event =>
          obtain ⟨_, -, -, hrest⟩ := hframe event rfl
          exact hrest
      | closed => cases committed <;> cases hc
      | invalid error => cases hc
    have halive := Operation.alive_onFrame s.op committed frame
    refine h.judged horderly (fun ha => halive.symm.trans ha) (fun _ => ⟨committed, hreading⟩) hstream
      (fun ht => ?_) fun hf => h.announced (hqueue _ hf)
    rcases hcases with he | ⟨-, rfl⟩ | ⟨error, he⟩ | ⟨-, rfl | hc⟩
    · rw [he, hreading] at ht
      exact hcommitted ht
    · obtain ⟨_, -, htells, -⟩ := hframe _ rfl
      exact htells (.inl rfl)
    · rw [he] at ht
      cases ht
    · obtain ⟨_, -, htells, -⟩ := hframe _ rfl
      exact htells (.inr rfl)
    · exact hcommitted hc
  · cases hreceive

theorem Truthful.read (h : Truthful K r s) (hstep : s.step K .read = some s') :
    Truthful K r s' ∧ s'.world = s.world := by
  obtain ⟨⟨frame, pipe⟩, hread, hmap⟩ := Option.bind_eq_some_iff.mp hstep
  obtain ⟨op, hreceive, rfl⟩ := Option.map_eq_some_iff.mp hmap
  refine ⟨h.receive hreceive ?_, rfl⟩
  rintro event rfl
  have hreading : ∃ committed, s.op.events = .reading committed := by
    unfold Operation.receive at hreceive
    split at hreceive
    · exact ⟨_, ‹_›⟩
    · cases hreceive
  obtain ⟨committed, hreading⟩ := hreading
  obtain ⟨events, hstream, htells⟩ := h.stream committed hreading
  obtain ⟨before, after, rfl, hrest⟩ := FrameCodec.readFrame_stream hstream hread
  refine ⟨committed, hreading, ?_, after, hrest, fun e he => ?_⟩
  · exact htells event (List.mem_append_right before List.mem_cons_self)
  · exact htells e (List.mem_append_right before (List.mem_cons_of_mem event he))

theorem Truthful.readFails {error : String} (h : Truthful K r s)
    (hstep : s.step K (.readFails error) = some s') :
    Truthful K r s' ∧ s'.world = s.world := by
  obtain ⟨op, hreceive, rfl⟩ := Option.map_eq_some_iff.mp hstep
  exact ⟨h.receive hreceive nofun, rfl⟩

/-- What the event thread does after its loop keeps its verdict. -/
theorem Truthful.advance {op : Operation} (h : Truthful K r s) (hadvance : s.op.advance = some op) :
    Truthful K r { s with op } := by
  have horderly := h.orderly.advance hadvance
  have hreading := (Operation.events_advance hadvance).2.1
  have hstream : ∀ committed, op.events = .reading committed → ∃ events,
      s.pipe ++ s.buffer = K.stream events ∧ ∀ e ∈ events, e.TellsOfResult → r.After s.world :=
    fun committed hc => absurd hc (hreading committed)
  have hread : op.Reading → s.op.Reading := fun ⟨committed, hc⟩ => absurd hc (hreading committed)
  rcases Operation.advance_cases hadvance with ⟨error, he, rfl⟩ | ⟨he, rfl⟩ | ⟨error, he, rfl⟩ |
    ⟨result, he, rfl⟩ | ⟨result, he, rfl⟩ | ⟨result, he, -, rfl⟩
  · obtain ⟨-, -, hqueue, halive, -⟩ := Operation.kill_fields s.op
    exact h.judged horderly (fun ha => halive.symm.trans ha) hread hstream nofun
      (hqueue ▸ h.announced)
  · exact h.judged horderly id hread hstream (fun _ => h.verdict (by rw [he]; rfl)) h.announced
  · exact h.judged horderly id hread hstream nofun h.announced
  · exact h.judged horderly id hread hstream (fun ht => h.verdict (by rw [he]; exact ht)) h.announced
  · exact h.judged horderly id hread hstream (fun ht => h.verdict (by rw [he]; exact ht)) h.announced
  · refine h.judged horderly id hread hstream nofun fun hf => ?_
    rcases List.mem_append.mp hf with hf | hf
    · exact h.announced hf
    · have heq := ControllerEvent.finished.inj (List.mem_singleton.mp hf)
      exact h.verdict (by rw [he]; exact heq.symm)

theorem Truthful.runEvents (h : Truthful K r s) (hstep : s.step K .runEvents = some s') :
    Truthful K r s' ∧ s'.world = s.world := by
  rw [step] at hstep
  split at hstep
  · split at hstep
    · obtain ⟨op, hadvance, rfl⟩ := Option.map_eq_some_iff.mp hstep
      exact ⟨h.advance hadvance, rfl⟩
    · cases hstep
  · obtain ⟨op, hadvance, rfl⟩ := Option.map_eq_some_iff.mp hstep
    exact ⟨h.advance hadvance, rfl⟩

/-- **One step.** It keeps what the parent relies on, and a published result. -/
theorem Truthful.step (h : Truthful K r s) (hstep : s.step K a = some s') :
    Truthful K r s' ∧ (r.After s.world → r.After s'.world ∧ Keeps r.output s.world s'.world) := by
  have hstays : Truthful K r s' ∧ s'.world = s.world →
      Truthful K r s' ∧ (r.After s.world → r.After s'.world ∧ Keeps r.output s.world s'.world) :=
    fun ⟨hs', heq⟩ => ⟨hs', fun ha => ⟨heq ▸ ha, fun _ _ _ hn => heq ▸ hn⟩⟩
  cases a with
  | worker p => exact h.worker hstep
  | conclude => exact hstays (h.conclude hstep)
  | flush n => exact hstays (h.flush hstep)
  | exit => exact hstays (h.exit hstep)
  | read => exact hstays (h.read hstep)
  | readFails error => exact hstays (h.readFails hstep)
  | cleanup p =>
      obtain ⟨hs', hkeeps, -⟩ := h.cleanup hstep
      exact ⟨hs', hkeeps⟩
  | runEvents => exact hstays (h.runEvents hstep)
  | forceClose => exact hstays (h.forceClose hstep)
  | env act => exact h.env hstep

/-! ## The end of a session -/

/-- A step of the worker process or of its parent. -/
def Goes (K : FrameCodec) (s' s : Session) : Prop :=
  ∃ a, a.isOutside = false ∧ s.step K a = some s'

/-- How far the event thread has to go. -/
def stage : RunEvents → Nat
  | .reading _ => 6
  | .ended _ => 5
  | .cleaning _ => 4
  | .closingInput _ => 3
  | .takingChild _ => 2
  | .waiting _ => 1
  | .finished => 0

/-- What is left of the worker process beyond its task. -/
def life (s : Session) : Nat :=
  (if s.op.alive then 1 else 0) + if s.concluded then 0 else 1

/-- What every step brings down, the most significant part first. -/
def left (s : Session) :
    Task World WorldInput Error × Nat × Nat × Nat × Nat × Task World WorldInput Error :=
  (s.worker, s.life, s.buffer.length, s.pipe.length, stage s.op.events, s.cleanup)

/-- The order of what is left. -/
abbrev Less : Task World WorldInput Error × Nat × Nat × Nat × Nat × Task World WorldInput Error →
    Task World WorldInput Error × Nat × Nat × Nat × Nat × Task World WorldInput Error → Prop :=
  Prod.Lex Task.After (Prod.Lex (· < ·) (Prod.Lex (· < ·) (Prod.Lex (· < ·)
    (Prod.Lex (· < ·) Task.After))))

theorem wellFounded_less : WellFounded Less := by
  have htask : WellFounded (Task.After (σ := World) (ι := WorldInput) (ε := Error)) :=
    ⟨Task.acc_after⟩
  have hnat : WellFounded fun m n : Nat => m < n := wellFounded_lt
  exact htask.prod_lex (hnat.prod_lex (hnat.prod_lex (hnat.prod_lex (hnat.prod_lex htask))))

/-- The parent goes on with what the worker has left. -/
theorem less_of_stage {op : Operation} {pipe : Bytes}
    (halive : op.alive = true → s.op.alive = true)
    (h : pipe.length < s.pipe.length ∨
      pipe.length = s.pipe.length ∧ stage op.events < stage s.op.events) :
    Less { s with op, pipe }.left s.left := by
  have hlife : { s with op, pipe }.life < s.life ∨ { s with op, pipe }.life = s.life := by
    unfold life
    dsimp only
    cases ha : op.alive with
    | true => exact .inr (by rw [halive ha])
    | false =>
        cases s.op.alive with
        | true => exact .inl (by simp)
        | false => exact .inr rfl
  refine .right _ ?_
  rcases hlife with hlt | heq
  · exact .left _ _ hlt
  · refine Prod.lex_def.mpr (.inr ⟨heq, .right _ ?_⟩)
    rcases h with hlt | ⟨hpipe, hlt⟩
    · exact .left _ _ hlt
    · exact Prod.lex_def.mpr (.inr ⟨hpipe, .left _ _ hlt⟩)

theorem less_read {frame : Frame} {op : Operation} {pipe : Bytes}
    (hreceive : s.op.receive frame = some op)
    (hpipe : pipe.length < s.pipe.length ∨ pipe = s.pipe ∧ ∀ event, frame ≠ .event event) :
    Less { s with op, pipe }.left s.left := by
  unfold Operation.receive at hreceive
  split at hreceive
  · rename_i committed hreading
    obtain rfl := Option.some.inj hreceive
    refine less_of_stage (fun ha => (Operation.alive_onFrame _ _ _).symm.trans ha) ?_
    rcases hpipe with hlt | ⟨rfl, hframe⟩
    · exact .inl hlt
    · refine .inr ⟨rfl, ?_⟩
      rw [hreading]
      cases frame with
      | event event => exact absurd rfl (hframe event)
      | closed => exact Nat.lt_succ_self 5
      | invalid error => exact Nat.lt_succ_self 5
  · cases hreceive

theorem less_advance {op : Operation} (hadvance : s.op.advance = some op) :
    Less { s with op }.left s.left := by
  rcases Operation.advance_cases hadvance with ⟨error, he, rfl⟩ | ⟨he, rfl⟩ | ⟨error, he, rfl⟩ |
    ⟨result, he, rfl⟩ | ⟨result, he, rfl⟩ | ⟨result, he, -, rfl⟩
  · obtain ⟨-, -, -, halive, -⟩ := Operation.kill_fields s.op
    refine less_of_stage (fun ha => halive.symm.trans ha) (.inr ⟨rfl, ?_⟩)
    rw [he]
    exact Nat.lt_succ_self 4
  · refine less_of_stage id (.inr ⟨rfl, ?_⟩)
    rw [he]
    show 3 < 5
    decide
  · exact less_of_stage id (.inr ⟨rfl, by rw [he]; exact Nat.lt_succ_self 3⟩)
  · exact less_of_stage id (.inr ⟨rfl, by rw [he]; exact Nat.lt_succ_self 2⟩)
  · exact less_of_stage id (.inr ⟨rfl, by rw [he]; exact Nat.lt_succ_self 1⟩)
  · exact less_of_stage id (.inr ⟨rfl, by rw [he]; exact Nat.lt_succ_self 0⟩)

/-- **Worker and parent come to an end**, whatever the others do in between. -/
theorem wellFounded_goes (K : FrameCodec) : WellFounded (Goes K) := by
  refine Subrelation.wf (r := InvImage Less left) ?_ (InvImage.wf left wellFounded_less)
  rintro s' s ⟨a, ha, hstep⟩
  show Less s'.left s.left
  cases a with
  | worker p =>
      rw [step] at hstep
      split at hstep
      · obtain ⟨⟨worker, world⟩, hworker, rfl⟩ := Option.map_eq_some_iff.mp hstep
        exact .left _ _ ⟨_, _, _, hworker⟩
      · cases hstep
  | conclude =>
      rw [step] at hstep
      split at hstep
      · rename_i hrun
        obtain ⟨result, -, rfl⟩ := Option.map_eq_some_iff.mp hstep
        refine .right _ (.left _ _ ?_)
        simp [life, hrun.2]
      · cases hstep
  | flush n =>
      rw [step] at hstep
      split at hstep
      · rename_i hn
        obtain rfl := Option.some.inj hstep
        refine .right _ (.right _ (.left _ _ ?_))
        rw [List.length_drop]
        exact Nat.sub_lt (Nat.lt_of_lt_of_le hn.2.1 hn.2.2) hn.2.1
      · cases hstep
  | exit =>
      rw [step] at hstep
      split at hstep
      · rename_i halive
        obtain rfl := Option.some.inj hstep
        refine .right _ (.left _ _ ?_)
        simp [life, halive]
      · cases hstep
  | read =>
      obtain ⟨⟨frame, pipe⟩, hread, hmap⟩ := Option.bind_eq_some_iff.mp hstep
      obtain ⟨op, hreceive, rfl⟩ := Option.map_eq_some_iff.mp hmap
      exact less_read hreceive (FrameCodec.readFrame_shrinks hread)
  | readFails error =>
      obtain ⟨op, hreceive, rfl⟩ := Option.map_eq_some_iff.mp hstep
      exact less_read hreceive (.inr ⟨rfl, nofun⟩)
  | cleanup p =>
      rw [step] at hstep
      split at hstep
      · obtain ⟨⟨cleanup, world⟩, hcleanup, rfl⟩ := Option.map_eq_some_iff.mp hstep
        exact .right _ (.right _ (.right _ (.right _ (.right _ ⟨_, _, _, hcleanup⟩))))
      · cases hstep
  | runEvents =>
      rw [step] at hstep
      split at hstep
      · split at hstep
        · obtain ⟨op, hadvance, rfl⟩ := Option.map_eq_some_iff.mp hstep
          exact less_advance hadvance
        · cases hstep
      · obtain ⟨op, hadvance, rfl⟩ := Option.map_eq_some_iff.mp hstep
        exact less_advance hadvance
  | forceClose => cases ha
  | env act => cases ha

/-- **Until the event thread has finished, worker or parent can go on.** -/
theorem Truthful.exists_goes (h : Truthful K r s) (hevents : s.op.events ≠ .finished) :
    ∃ a, a.isOutside = false ∧ s.step K a ≠ none := by
  by_cases halive : s.op.alive = true
  · refine ⟨.exit, rfl, ?_⟩
    rw [Session.step, if_pos halive]
    exact Option.some_ne_none _
  have hgone : s.op.alive = false := eq_false_of_ne_true halive
  have hadvance : ∀ op, s.op.advance = some op → (∀ error, s.op.events ≠ .cleaning error) →
      s.step K .runEvents ≠ none := by
    intro op hop hne
    rw [Session.step]
    split
    · rename_i error he
      exact absurd he (hne error)
    · rw [hop]
      exact Option.some_ne_none _
  rcases hstage : s.op.events with committed | result | error | result | result | result | _
  · refine ⟨.read, rfl, ?_⟩
    obtain ⟨⟨frame, pipe⟩, hread⟩ : ∃ f, K.readFrame true s.pipe = some f := FrameCodec.readFrame_closed
    rw [Session.step, hgone, Bool.not_false, hread, Option.bind_some]
    dsimp only
    rw [Operation.receive, hstage]
    exact Option.some_ne_none _
  · refine ⟨.runEvents, rfl, ?_⟩
    rcases result with error | ⟨⟨⟩⟩
    · exact hadvance _ (by rw [Operation.advance, hstage]) (by rw [hstage]; nofun)
    · exact hadvance _ (by rw [Operation.advance, hstage]) (by rw [hstage]; nofun)
  · rcases h.willing.progress s.world with hended | ⟨p, -, hp⟩
    · refine ⟨.runEvents, rfl, ?_⟩
      rw [Session.step, hstage]
      dsimp only
      rw [if_pos hended, Operation.advance, hstage]
      exact Option.some_ne_none _
    · refine ⟨.cleanup p, rfl, ?_⟩
      obtain ⟨c, hc⟩ := Option.isSome_iff_exists.mp hp
      rw [Session.step, hstage]
      dsimp only
      rw [hc]
      exact Option.some_ne_none _
  · exact ⟨.runEvents, rfl, hadvance _ (by rw [Operation.advance, hstage]) (by rw [hstage]; nofun)⟩
  · exact ⟨.runEvents, rfl, hadvance _ (by rw [Operation.advance, hstage]) (by rw [hstage]; nofun)⟩
  · refine ⟨.runEvents, rfl, hadvance { s.op.emit (.finished result) with events := .finished } ?_
      (by rw [hstage]; nofun)⟩
    rw [Operation.advance, hstage]
    dsimp only
    rw [hgone]
    rfl
  · exact absurd hstage hevents

/-! ## Sessions -/

variable {Key : Type} {R : V2.Reader Key} {walk : List (Result Path)} {batchSize : Nat}
  {operation : OutputOperation} {fs : Fs} {nextOther : Nat}

theorem truthful_start :
    Truthful K operation.route (start R walk batchSize operation fs nextOther) where
  orderly := Operation.orderly_start _
  harmless := harmless_cleanupPath _ _
  willing := willing_cleanupPath _
  working _ _ _ := by
    have hruns : operation.route.Runs operation.route.Before (operation.execute R walk batchSize)
        fun _ => operation.route.After := by
      cases operation with
      | pack source output temporary password duressPassword => exact Pack.runs_execute rfl rfl rfl
      | extract container output staging password => exact Extract.runs_execute rfl rfl rfl
    exact ⟨hruns.safe Route.After.stable (fun _ => Route.Sound.stable) (.start fs nextOther),
      .inl (.start fs nextOther)⟩
  late _ _ := by
    have hlate : operation.route.RunsLate (operation.execute R walk batchSize) fun _ => True := by
      cases operation with
      | pack source output temporary password duressPassword => exact Pack.late_execute rfl rfl
      | extract container output staging password => exact Extract.late_execute rfl rfl
    have hguarded : operation.route.Guarded (.start fs nextOther) := nofun
    exact ⟨(hlate.conseq (fun _ h => h) (fun _ _ h => h.2) fun _ _ h => h).safe
      Route.Guarded.stable (fun _ => Route.Guarded.stable) hguarded, hguarded⟩
  stream _ _ := ⟨[], rfl, nofun⟩
  verdict := nofun
  announced := nofun
  settled hp := absurd hp (Route.Before.start fs nextOther).not_published

theorem truthful_run {as : List Action} (hrun : run (step K) (start R walk batchSize operation fs
    nextOther) as = some s) : Truthful K operation.route s :=
  run_inv (I := Truthful K operation.route) (fun _ _ _ _ h hstep => (h.step hstep).1) hrun
    truthful_start

/-- From a published result on nothing of it is lost. -/
theorem Truthful.run {as : List Action} (h : Truthful K r s) (hafter : r.After s.world)
    (hrun : CipherFS.run (Session.step K) s as = some s') :
    r.After s'.world ∧ Keeps r.output s.world s'.world := by
  have hinv := run_inv (I := fun t : Session => Truthful K r t ∧ r.After t.world ∧
    Keeps r.output s.world t.world) ?_ hrun ⟨h, hafter, fun _ _ _ hn => hn⟩
  · exact hinv.2
  · rintro t a t' - ⟨ht, ha, hk⟩ hstep
    obtain ⟨ht', hafter'⟩ := ht.step hstep
    exact ⟨ht', (hafter' ha).1, hk.trans (hafter' ha).2⟩

end Session

/-- `Finished`. -/
def ControllerEvent.isFinished : ControllerEvent → Bool
  | .finished _ => true
  | _ => false

theorem countP_eq_zero {queue : List ControllerEvent} (h : ∀ result, .finished result ∉ queue) :
    queue.countP (·.isFinished) = 0 := by
  rw [List.countP_eq_zero]
  intro event hevent hfinished
  cases event with
  | finished result => exact h result hevent
  | _ => cases hfinished

theorem Operation.Orderly.countP {op : Operation} (h : op.Orderly) :
    op.queue.countP (·.isFinished) = if op.events = .finished then 1 else 0 := by
  split
  · rename_i hevents
    obtain ⟨before, result, hqueue, hbefore⟩ := h.once hevents
    rw [hqueue, List.countP_append, countP_eq_zero hbefore]
    rfl
  · rename_i hevents
    exact countP_eq_zero (h.silent hevents)

/-- What can be said of a session at any point: the end is announced at most once,
and exactly once when worker and parent are through, which they come to;
success is announced only of a published output; the parent's thread removes
nothing but the artifact; and what has been published stays. -/
structure Outcome (K : FrameCodec) (r : Route) (s : Session) : Prop where
  atMostOnce : s.op.queue.countP (·.isFinished) ≤ 1
  exactlyOnce : (∀ a, a.isOutside = false → s.step K a = none) →
    s.op.queue.countP (·.isFinished) = 1
  ends : Acc (Session.Goes K) s
  honest : .finished (.ok ()) ∈ s.op.queue → r.Published s.world
  cleanup : ∀ a s', a.isRunEvents = true → s.step K a = some s' →
    Removes r.artifact s.world s'.world
  lasting : ∀ as s', run (Session.step K) s as = some s' → r.Published s.world →
    r.Published s'.world ∧ Keeps r.output s.world s'.world

/-- **The parent's outcome is sound**, in every session: wherever the worker is
cancelled, killed or crashes, and wherever its stream ends. -/
theorem worker_outcome_sound {Key : Type} (R : V2.Reader Key) (walk : List (Result Path))
    (batchSize : Nat) (operation : OutputOperation) (fs : Fs) (nextOther : Nat) (K : FrameCodec)
    {as : List Session.Action} {s : Session}
    (hrun : run (Session.step K) (.start R walk batchSize operation fs nextOther) as = some s) :
    Outcome K operation.route s := by
  have htruthful := Session.truthful_run hrun
  have hcount := htruthful.orderly.countP
  refine
    { atMostOnce := ?_, exactlyOnce := fun hstuck => ?_, ends := (Session.wellFounded_goes K).apply s
      honest := fun hf => (htruthful.announced hf).published, cleanup := fun a s' ha hstep => ?_
      lasting := fun bs t ht hp => ?_ }
  · rw [hcount]
    split
    · exact Nat.le_refl 1
    · exact Nat.zero_le 1
  · rw [hcount, if_pos]
    by_contra hevents
    obtain ⟨a, ha, hgoes⟩ := htruthful.exists_goes hevents
    exact hgoes (hstuck a ha)
  · have hsame : s'.world = s.world → Removes operation.route.artifact s.world s'.world :=
      fun heq => heq ▸ .refl _ _
    cases a with
    | read => exact hsame (htruthful.read hstep).2
    | readFails error => exact hsame (htruthful.readFails hstep).2
    | cleanup p =>
        obtain ⟨-, -, hremoves⟩ := htruthful.cleanup hstep
        exact hremoves
    | runEvents => exact hsame (htruthful.runEvents hstep).2
    | _ => cases ha
  · obtain ⟨hafter, hkeeps⟩ := htruthful.run (htruthful.settled hp) ht
    exact ⟨hafter.published, hkeeps⟩

/-! ## A worker that dies inside a frame -/

/-- `{"PhaseStarted": "Scan"}`. -/
def sampleFrame : Bytes :=
  [0x81, 0xac, 0x50, 0x68, 0x61, 0x73, 0x65, 0x53, 0x74, 0x61, 0x72, 0x74, 0x65, 0x64,
    0xa4, 0x53, 0x63, 0x61, 0x6e]

/-- The codec on the one event of the sample. -/
def sampleCodec : FrameCodec where
  encode event := if event = .phaseStarted .scan then some sampleFrame else none
  decode payload := if payload = sampleFrame then .ok (.phaseStarted .scan) else .error "unknown"
  decode_encode {event payload} h := by
    split at h
    · rename_i hevent
      rw [hevent, if_pos (Option.some.inj h).symm]
    · cases h

def sampleReader : V2.Reader Unit :=
  ⟨V2.clearCrypto, ⟨fun _ => none, fun _ => none⟩, .stored, .windows, .ascii, id⟩

/-- The directory `s` is to be packed into `o`. -/
def sampleOperation : OutputOperation := .pack [.utf8 "s"] [.utf8 "o"] [.utf8 "t"] "p" none

def sampleFs : Fs where
  tree p := if p = [] ∨ p = [.utf8 "s"] then some .directory else none
  inodes _ := ⟨[], 0⟩

def sampleStart : Session := .start sampleReader [] 1 sampleOperation sampleFs 0

def sampleInput : WorldInput := ⟨none, 0, fun _ => false, fun _ => 0, 0⟩

/-- The worker reports its first phase and is killed when ten bytes of the frame are
through; the call it is in still ends. Somebody else makes a file at the artifact,
which the cleanup removes. -/
def sampleActions : List Session.Action :=
  List.replicate 5 (.worker (.here sampleInput)) ++
    [.flush 10, .forceClose, .worker (.here sampleInput), .exit, .read, .runEvents, .env (.mkfile [.utf8 "t"] ⟨[], 0⟩),
      .cleanup (.here sampleInput), .cleanup (.here sampleInput)] ++
    List.replicate 4 .runEvents

theorem worker_outcome_sound_sample : ∃ s, s.op.events = .finished ∧
    s.op.queue = [.finished (.error ("Invalid CipherFS worker response: " ++
      "Truncated worker protocol frame: failed to fill whole buffer"))] ∧
    Outcome sampleCodec sampleOperation.route s := by
  have hend : (run (Session.step sampleCodec) sampleStart sampleActions).map
      (fun s => (s.op.events, s.op.queue)) = some (.finished, [.finished (.error
        ("Invalid CipherFS worker response: " ++
          "Truncated worker protocol frame: failed to fill whole buffer"))]) := by
    decide +kernel
  obtain ⟨s, hrun, hs⟩ := Option.map_eq_some_iff.mp hend
  obtain ⟨hevents, hqueue⟩ := Prod.mk.inj hs
  exact ⟨s, hevents, hqueue, worker_outcome_sound sampleReader [] 1 sampleOperation sampleFs 0
    sampleCodec hrun⟩

end CipherFS.WindowsShell
