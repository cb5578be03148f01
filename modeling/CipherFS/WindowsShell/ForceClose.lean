import CipherFS.WindowsShell.App

/-!
# Force closing and the protected zone

`request_cancel` and the close handler look at the protection of the handle, and
`force_close` does not: an overlay that was opened before the worker began to
commit still kills it afterwards. The invariant is that a protected handle meets
no force close under way; only the frame that protects it can break it.
-/

namespace CipherFS.WindowsShell

namespace Shell

/-! ## Sparing the worker -/

/-- No worker was killed in its protected zone, and none is about to be. -/
structure Spared (s : Shell) : Prop where
  unkilled : s.killedProtected = false
  settled : s.op.handle.isProtected → ¬s.ForceCloseUnderway

theorem spared_callbackStep {s s' : Shell} {written : Bool} (h : s.Spared)
    (hstep : s.callbackStep written = some s') : s'.Spared := by
  obtain ⟨hkilled, hsettled⟩ := h
  rw [Shell.ForceCloseUnderway] at hsettled
  unfold callbackStep at hstep
  cases hcb : s.callback with
  | idle =>
      rw [hcb] at hstep
      cases hstep
  | loadProtected source =>
      rw [hcb] at hstep hsettled
      cases hstep
      split
      · rename_i hp
        exact ⟨hkilled, fun _ => hsettled hp⟩
      · rename_i hp
        exact ⟨hkilled, fun hp' => absurd hp' hp⟩
  | swapCancelling source =>
      rw [hcb] at hstep hsettled
      cases hstep
      split
      · rename_i hc
        rw [hc] at hsettled
        cases source with
        | cancelButton => exact ⟨hkilled, fun hp => absurd (Or.inr ⟨rfl, rfl⟩) (hsettled hp)⟩
        | overlay => exact ⟨hkilled, fun hp ho => hsettled hp (.inl ho)⟩
      · exact ⟨hkilled, fun hp ho => hsettled hp (.inl ho)⟩
  | writeCancel source =>
      rw [hcb] at hstep hsettled
      cases hstep
      cases source <;> split <;> exact ⟨hkilled, fun hp => hsettled hp⟩
  | offerForceClose =>
      rw [hcb] at hstep hsettled
      cases hstep
      exact ⟨hkilled, fun hp => absurd trivial (hsettled hp)⟩
  | closeRequested =>
      rw [hcb] at hstep
      cases hstep
      split
      · -- the overlay is replaced by one that says "Keep open"
        exact ⟨hkilled, fun _ ho => absurd (show "Keep open" = "Force close" from ho.2) (by decide)⟩
      · rename_i hp
        exact ⟨hkilled, fun hp' => absurd hp' hp⟩
  | confirmed =>
      rw [hcb] at hstep hsettled
      cases hstep
      split
      · rename_i hlabel
        exact ⟨hkilled, fun hp => absurd hlabel (hsettled hp)⟩
      · rename_i hlabel
        exact ⟨hkilled, fun _ ho => hlabel ho.2⟩
  | forceClose =>
      rw [hcb] at hstep hsettled
      simp only [Option.ite_none_right_eq_some, Option.some.injEq] at hstep
      obtain ⟨_, rfl⟩ := hstep
      have hp : s.op.handle.isProtected = false := by
        simpa using fun hp => hsettled hp trivial
      have hp' : s.forceClose.op.handle.isProtected = false := by
        rw [forceClose, Operation.handle_kill, hp]
      constructor
      · show (s.killedProtected || _) = false
        rw [hkilled, hp, Bool.and_false, Bool.false_or]
      · exact fun h => absurd h (by rw [backToLoop, hp']; decide)

theorem deliver_fields (s : Shell) (event : ControllerEvent) :
    (s.deliver event).op = s.op ∧ (s.deliver event).overlay = s.overlay ∧
      (s.deliver event).callback = s.callback ∧
      (s.deliver event).killedProtected = s.killedProtected := by
  unfold deliver
  split <;> (try split) <;> exact ⟨rfl, rfl, rfl, rfl⟩

/-- A step that changes neither the callback nor the overlay, and protects
nothing, spares the worker as before. -/
theorem Spared.congr {s s' : Shell} (h : s.Spared) (hcallback : s'.callback = s.callback)
    (hoverlay : s'.overlay = s.overlay) (hkilled : s'.killedProtected = s.killedProtected)
    (hcancelling : s'.op.handle.cancelling = s.op.handle.cancelling)
    (hprotected : s'.op.handle.isProtected = true →
      s.op.handle.isProtected = true ∨ ¬s.ForceCloseUnderway) : s'.Spared := by
  have hunderway : s'.ForceCloseUnderway ↔ s.ForceCloseUnderway := by
    rw [ForceCloseUnderway, ForceCloseUnderway, hcallback, hoverlay, hcancelling]
  refine ⟨hkilled.trans h.unkilled, fun hp => ?_⟩
  rw [hunderway]
  rcases hprotected hp with hp' | hsettled
  · exact h.settled hp'
  · exact hsettled

/-- One step spares the worker, unless it opens the protected zone while a force
close is under way. -/
theorem spared_step {s s' : Shell} {a : Action} (h : s.Spared) (hstep : s.step a = some s')
    (ha : ∀ f, a = .frame f → f.entersProtected = true → ¬s.ForceCloseUnderway) : s'.Spared := by
  cases a with
  | pressCancel byKey =>
      simp only [step, Option.ite_none_right_eq_some, Option.some.injEq] at hstep
      obtain ⟨⟨hidle, _⟩, rfl⟩ := hstep
      split
      · refine ⟨h.unkilled, fun hp hu => h.settled hp ?_⟩
        rw [ForceCloseUnderway, hidle]
        exact hu
      · exact h
  | requestClose =>
      simp only [step, Option.ite_none_right_eq_some, Option.some.injEq] at hstep
      obtain ⟨_, rfl⟩ := hstep
      exact ⟨h.unkilled, fun _ hu => hu⟩
  | confirmOverlay =>
      simp only [step, Option.ite_none_right_eq_some, Option.some.injEq] at hstep
      obtain ⟨⟨hidle, hvisible⟩, rfl⟩ := hstep
      refine ⟨h.unkilled, fun hp hu => h.settled hp ?_⟩
      rw [ForceCloseUnderway, hidle]
      by_cases hop : s.operation
      · have hlabel : s.overlay.confirmLabel = "Force close" := by
          simpa [ForceCloseUnderway, Callback.ForceCloseUnderway, hop] using hu
        exact ⟨hvisible, hlabel⟩
      · simp [ForceCloseUnderway, Callback.ForceCloseUnderway, Overlay.OffersForceClose, hop] at hu
  | dismissOverlay =>
      simp only [step, Option.ite_none_right_eq_some, Option.some.injEq] at hstep
      obtain ⟨⟨hidle, _⟩, rfl⟩ := hstep
      refine ⟨h.unkilled, fun _ hu => ?_⟩
      rw [ForceCloseUnderway, hidle] at hu
      exact Bool.false_ne_true hu.1
  | callbackStep written => exact spared_callbackStep h hstep
  | deliver =>
      simp only [step] at hstep
      split at hstep
      · rename_i event rest hidle hqueue
        cases hstep
        obtain ⟨hop, hoverlay, hcallback, hkilled⟩ :=
          deliver_fields { s with op.queue := rest } event
        refine h.congr hcallback hoverlay hkilled (by rw [hop]) fun hp => .inl ?_
        rwa [hop] at hp
      · cases hstep
  | frame frame =>
      simp only [step, Option.map_eq_some_iff] at hstep
      obtain ⟨op, hreceive, rfl⟩ := hstep
      obtain ⟨hprotected, hcancelling⟩ := Operation.isProtected_receive hreceive
      refine h.congr rfl rfl rfl hcancelling fun hp => ?_
      rw [hprotected, Bool.or_eq_true] at hp
      exact hp.imp id (ha frame rfl)
  | runEvents =>
      simp only [step, Option.map_eq_some_iff] at hstep
      obtain ⟨op, hadvance, rfl⟩ := hstep
      obtain ⟨hprotected, hcancelling⟩ := Operation.isProtected_advance hadvance
      exact h.congr rfl rfl rfl hcancelling fun hp => .inl (hprotected ▸ hp)
  | workerExits =>
      simp only [step, Option.ite_none_right_eq_some, Option.some.injEq] at hstep
      obtain ⟨_, rfl⟩ := hstep
      exact h.congr rfl rfl rfl rfl .inl

/-! ## Runs -/

/-- Every frame that opens a protected zone arrives while no force close is under
way. -/
def SettledReceptions (s : Shell) (as : List Action) : Prop :=
  ∀ pre frame post m, as = pre ++ .frame frame :: post → run step s pre = some m →
    frame.entersProtected = true → ¬m.ForceCloseUnderway

theorem spared_run {as : List Action} : ∀ {s t : Shell}, s.Spared →
    run step s as = some t → SettledReceptions s as → t.Spared := by
  induction as with
  | nil =>
      intro s t hs hrun _
      obtain rfl : s = t := Option.some.inj hrun
      exact hs
  | cons a rest ih =>
      intro s t hs hrun hsettled
      rw [run_cons, Option.bind_eq_some_iff] at hrun
      obtain ⟨m, hstep, hrest⟩ := hrun
      have hm : m.Spared := by
        refine spared_step hs hstep fun frame ha hframe => ?_
        exact hsettled [] frame rest s (by rw [ha]; rfl) rfl hframe
      refine ih hm hrest fun pre frame post m' has hpre => ?_
      refine hsettled (a :: pre) frame post m' (by rw [has]; rfl) ?_
      rw [run_cons, hstep]
      exact hpre

/-- While the event thread has not finished, the window holds the operation, and
while it reads, the handle holds the worker. -/
structure Attached (s : Shell) : Prop where
  held : s.op.events ≠ .finished → s.operation = true ∧ ∀ r, .finished r ∉ s.op.queue
  child : ∀ committed, s.op.events = .reading committed → s.op.handle.child = true

theorem attached_start (artifact : Option Path) : (start artifact).Attached :=
  ⟨fun _ => ⟨rfl, fun _ h => by cases h⟩, fun _ _ => rfl⟩

theorem Attached.of_op {s s' : Shell} (h : s.Attached) (hevents : s'.op.events = s.op.events)
    (hqueue : s'.op.queue = s.op.queue) (hchild : s'.op.handle.child = s.op.handle.child)
    (hoperation : s'.operation = s.operation) : s'.Attached := by
  constructor
  · rw [hevents, hqueue, hoperation]
    exact h.held
  · rw [hevents, hchild]
    exact h.child


theorem attached_callbackStep {s s' : Shell} {written : Bool} (h : s.Attached)
    (hstep : s.callbackStep written = some s') : s'.Attached := by
  unfold callbackStep at hstep
  split at hstep
  · cases hstep
  · cases hstep
    split <;> exact h.of_op rfl rfl rfl rfl
  · rename_i source _
    cases hstep
    split
    · cases source <;> exact h.of_op rfl rfl rfl rfl
    · exact h.of_op rfl rfl rfl rfl
  · rename_i source _
    cases hstep
    cases source <;> split <;> exact h.of_op rfl rfl rfl rfl
  · cases hstep
    exact h.of_op rfl rfl rfl rfl
  · cases hstep
    split <;> exact h.of_op rfl rfl rfl rfl
  · cases hstep
    split <;> exact h.of_op rfl rfl rfl rfl
  · split at hstep
    · cases hstep
      rw [forceClose, Operation.kill]
      split <;> exact h.of_op rfl rfl rfl rfl
    · cases hstep

theorem attached_step {s s' : Shell} {a : Action} (h : s.Attached) (hstep : s.step a = some s') :
    s'.Attached := by
  cases a with
  | pressCancel byKey =>
      simp only [step, Option.ite_none_right_eq_some, Option.some.injEq] at hstep
      obtain ⟨_, rfl⟩ := hstep
      split
      · exact h.of_op rfl rfl rfl rfl
      · exact h
  | requestClose =>
      simp only [step, Option.ite_none_right_eq_some, Option.some.injEq] at hstep
      obtain ⟨_, rfl⟩ := hstep
      exact h.of_op rfl rfl rfl rfl
  | confirmOverlay =>
      simp only [step, Option.ite_none_right_eq_some, Option.some.injEq] at hstep
      obtain ⟨_, rfl⟩ := hstep
      exact h.of_op rfl rfl rfl rfl
  | dismissOverlay =>
      simp only [step, Option.ite_none_right_eq_some, Option.some.injEq] at hstep
      obtain ⟨_, rfl⟩ := hstep
      exact h.of_op rfl rfl rfl rfl
  | callbackStep written => exact attached_callbackStep h hstep
  | deliver =>
      simp only [step] at hstep
      split at hstep
      · rename_i event rest _ hqueue
        cases hstep
        have hop := (deliver_fields { s with op.queue := rest } event).1
        constructor
        · intro hne
          rw [hop] at hne ⊢
          obtain ⟨hoperation, hfresh⟩ := h.held hne
          rw [hqueue] at hfresh
          refine ⟨?_, fun r hr => hfresh r (List.mem_cons_of_mem _ hr)⟩
          cases event with
          | finished r => exact absurd List.mem_cons_self (hfresh r)
          | _ => exact hoperation
        · rw [hop]
          exact h.child
      · cases hstep
  | frame frame =>
      simp only [step, Option.map_eq_some_iff] at hstep
      obtain ⟨op, hreceive, rfl⟩ := hstep
      unfold Operation.receive at hreceive
      split at hreceive
      · rename_i committed hevents
        cases hreceive
        obtain ⟨hqueue, hchild⟩ := Operation.queue_onFrame s.op committed frame
        obtain ⟨hoperation, hfresh⟩ := h.held (by rw [hevents]; rintro ⟨⟩)
        exact ⟨fun _ => ⟨hoperation, fun r hr => hfresh r (hqueue r hr)⟩,
          fun _ _ => hchild.trans (h.child committed hevents)⟩
      · cases hreceive
  | runEvents =>
      simp only [step, Option.map_eq_some_iff] at hstep
      obtain ⟨op, hadvance, rfl⟩ := hstep
      obtain ⟨hne, hread, hqueue⟩ := Operation.events_advance hadvance
      obtain ⟨hoperation, hfresh⟩ := h.held hne
      exact ⟨fun hne' => ⟨hoperation, by rw [hqueue hne']; exact hfresh⟩,
        fun committed hevents => absurd hevents (hread committed)⟩
  | workerExits =>
      simp only [step, Option.ite_none_right_eq_some, Option.some.injEq] at hstep
      obtain ⟨_, rfl⟩ := hstep
      exact h.of_op rfl rfl rfl rfl

/-! ## Completing a force close -/

/-- A protected worker that still runs and can be reached through the handle. -/
structure Exposed (s : Shell) : Prop where
  operation : s.operation = true
  running : s.op.running = true
  child : s.op.handle.child = true
  protects : s.op.handle.isProtected = true
  unlocked : s.op.childUnlocked = true

/-- User actions that kill the protected worker. -/
def CanKill (s : Shell) : Prop :=
  ∃ users : List Action, (∀ a ∈ users, a.isUser = true) ∧
    ∃ t, run step s users = some t ∧ t.killedProtected = true

theorem CanKill.of_step {s : Shell} (a : Action) (s' : Shell) (ha : a.isUser = true)
    (hstep : s.step a = some s') (h : s'.CanKill) : s.CanKill := by
  obtain ⟨users, husers, t, hrun, hkilled⟩ := h
  refine ⟨a :: users, List.forall_mem_cons.mpr ⟨ha, husers⟩, t, ?_, hkilled⟩
  rw [run_cons, hstep]
  exact hrun

theorem canKill_forceClose {s : Shell} (h : s.Exposed) (hcb : s.callback = .forceClose) :
    s.CanKill := by
  refine ⟨[.callbackStep true], by decide, s.forceClose.backToLoop, ?_, ?_⟩
  · simp [run_cons, step, callbackStep, hcb, h.unlocked]
  · simp [backToLoop, forceClose, h.running, h.child, h.protects]

theorem canKill_confirmed {s : Shell} (h : s.Exposed) (hcb : s.callback = .confirmed)
    (hlabel : s.overlay.confirmLabel = "Force close") : s.CanKill := by
  refine .of_step (.callbackStep true) { s with callback := .forceClose } rfl ?_ ?_
  · simp [step, callbackStep, hcb, hlabel]
  · exact canKill_forceClose ⟨h.operation, h.running, h.child, h.protects, h.unlocked⟩ rfl

theorem canKill_idle {s : Shell} (h : s.Exposed) (hcb : s.callback = .idle)
    (ho : s.overlay.OffersForceClose) : s.CanKill := by
  refine .of_step .confirmOverlay
    { s with overlay.visible := false, callback := .confirmed } rfl ?_ ?_
  · simp [step, hcb, ho.1, h.operation]
  · exact canKill_confirmed ⟨h.operation, h.running, h.child, h.protects, h.unlocked⟩ rfl ho.2

/-- A callback that returns with the overlay still up leaves it to the user. -/
theorem canKill_returns {s : Shell} (h : s.Exposed) (s' : Shell)
    (hstep : s.callbackStep true = some s') (hcb : s'.callback = .idle)
    (hoverlay : s'.overlay.OffersForceClose) (hop : s'.op = s.op)
    (hoperation : s'.operation = s.operation) : s.CanKill := by
  refine .of_step (.callbackStep true) s' rfl hstep (canKill_idle ?_ hcb hoverlay)
  refine ⟨hoperation.trans h.operation, ?_, ?_, ?_, ?_⟩ <;> rw [hop]
  · exact h.running
  · exact h.child
  · exact h.protects
  · exact h.unlocked

theorem canKill_offerForceClose {s : Shell} (h : s.Exposed) (hcb : s.callback = .offerForceClose) :
    s.CanKill := by
  have hstep : s.callbackStep true = some (s.showOverlay "Force close operation worker?"
      ("The worker is still waiting for a safe boundary. " ++
        "Only its exact recorded temporary artifact will be removed.")
      "Force close").backToLoop := by
    rw [callbackStep, hcb]
  exact canKill_returns h _ hstep rfl ⟨rfl, rfl⟩ rfl rfl

theorem canKill_writeCancel {s : Shell} {source : CancelSource} (h : s.Exposed)
    (hcb : s.callback = .writeCancel source) (ho : s.overlay.OffersForceClose) : s.CanKill := by
  refine canKill_returns h _ (by rw [callbackStep, hcb]) ?_ ?_ ?_ ?_ <;>
    cases source <;> split <;> first | rfl | exact ho

theorem canKill_swapCancelling {s : Shell} {source : CancelSource} (h : s.Exposed)
    (hcb : s.callback = .swapCancelling source)
    (hu : s.overlay.OffersForceClose ∨ source = .cancelButton ∧ s.op.handle.cancelling = true) :
    s.CanKill := by
  by_cases hc : s.op.handle.cancelling = true
  · cases source with
    | cancelButton =>
        refine .of_step (.callbackStep true) { s with callback := .offerForceClose } rfl ?_ ?_
        · simp [step, callbackStep, hcb, hc, cancelRequested]
        · exact canKill_offerForceClose
            ⟨h.operation, h.running, h.child, h.protects, h.unlocked⟩ rfl
    | overlay =>
        refine canKill_returns h s.backToLoop ?_ rfl (hu.resolve_right ?_) rfl rfl
        · simp [callbackStep, hcb, hc, cancelRequested]
        · rintro ⟨⟨⟩, _⟩
  · refine .of_step (.callbackStep true)
      { s with op.handle.cancelling := true, callback := .writeCancel source } rfl ?_ ?_
    · simp [step, callbackStep, hcb, hc]
    · refine canKill_writeCancel ⟨h.operation, h.running, h.child, h.protects, h.unlocked⟩ rfl ?_
      exact hu.resolve_right fun hcancel => hc hcancel.2

/-- A force close under way can be completed after all. -/
theorem canKill_of_underway {s : Shell} (h : s.Exposed) (hu : s.ForceCloseUnderway) :
    s.CanKill := by
  rw [ForceCloseUnderway] at hu
  cases hcb : s.callback with
  | idle =>
      rw [hcb] at hu
      exact canKill_idle h hcb hu
  | loadProtected source =>
      rw [hcb] at hu
      refine canKill_returns h s.backToLoop ?_ rfl hu rfl rfl
      simp [callbackStep, hcb, h.protects, cancelRequested]
  | swapCancelling source =>
      rw [hcb] at hu
      exact canKill_swapCancelling h hcb hu
  | writeCancel source =>
      rw [hcb] at hu
      exact canKill_writeCancel h hcb hu
  | offerForceClose => exact canKill_offerForceClose h hcb
  | closeRequested =>
      rw [hcb] at hu
      exact hu.elim
  | confirmed =>
      rw [hcb] at hu
      exact canKill_confirmed h hcb hu
  | forceClose => exact canKill_forceClose h hcb

/-! ## The protected zone -/

/-- **A worker is not killed by the user in its protected zone as long as no
frame opens the zone while a force close is under way; where one does, the user
can still kill the running worker.** -/
theorem protected_worker_spared (artifact : Option Path) {as : List Action} {s : Shell}
    (hrun : run step (start artifact) as = some s) :
    (SettledReceptions (start artifact) as → s.killedProtected = false) ∧
      ∀ frame s', frame.entersProtected = true → s.step (.frame frame) = some s' →
        s.ForceCloseUnderway → s.op.running = true → s'.CanKill := by
  constructor
  · intro hsettled
    exact (spared_run ⟨rfl, fun h => by cases h⟩ hrun hsettled).unkilled
  · intro frame s' hframe hstep hu hrunning
    have hattached : s.Attached :=
      run_inv (fun _ _ _ _ h hm => attached_step h hm) hrun (attached_start artifact)
    simp only [step, Option.map_eq_some_iff] at hstep
    obtain ⟨op, hreceive, rfl⟩ := hstep
    unfold Operation.receive at hreceive
    split at hreceive
    · rename_i committed hevents
      cases hreceive
      rw [Operation.onFrame_of_entersProtected s.op committed hframe]
      refine canKill_of_underway ⟨?_, hrunning, hattached.child committed hevents, rfl, ?_⟩ hu
      · exact (hattached.held (by rw [hevents]; rintro ⟨⟩)).1
      · rw [Operation.childUnlocked, Operation.emit, hevents]
    · cases hreceive

/-- The second Cancel opens the overlay, the worker starts to commit, and the
overlay is confirmed. -/
def lateConfirmation : List Action :=
  [.pressCancel false, .callbackStep true, .callbackStep true, .callbackStep true,
    .pressCancel false, .callbackStep true, .callbackStep true, .callbackStep true,
    .frame (.event .commitStarted), .confirmOverlay, .callbackStep true, .callbackStep true]

/-- The worker is killed after its `CommitStarted` was received. -/
theorem late_confirmation_kills : ¬∀ (artifact : Option Path) (as : List Action) (s : Shell),
    run step (start artifact) as = some s → s.killedProtected = false := by
  intro h
  have hkilled : ∃ s, run step (start none) lateConfirmation = some s ∧ s.killedProtected = true :=
    ⟨_, rfl, by decide⟩
  obtain ⟨s, hrun, hs⟩ := hkilled
  rw [h none lateConfirmation s hrun] at hs
  cases hs

/-- The worker starts to commit first; then the user cancels, asks to close and
confirms the overlay. -/
def earlyCommit : List Action :=
  [.frame (.event .mutationStarted), .pressCancel true, .callbackStep true, .requestClose,
    .callbackStep true, .confirmOverlay, .callbackStep true, .callbackStep true]

def afterEarlyCommit : Shell := (run step (start none) earlyCommit).getD (start none)

theorem protected_worker_spared_sample : afterEarlyCommit.killedProtected = false := by
  have hrun : run step (start none) earlyCommit = some afterEarlyCommit := by decide +kernel
  refine (protected_worker_spared none hrun).1 ?_
  rintro (_ | ⟨a, pre⟩) frame post m has hm hframe
  · obtain rfl : start none = m := Option.some.inj hm
    intro hu
    exact Bool.false_ne_true hu.1
  · obtain ⟨_, hrest⟩ := List.cons.inj has
    have hmem : Action.frame frame ∈ pre.append (.frame frame :: post) := by simp
    rw [← hrest] at hmem
    simp at hmem

end Shell

end CipherFS.WindowsShell
