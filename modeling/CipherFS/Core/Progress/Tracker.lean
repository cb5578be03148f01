import CipherFS.Core.Interference
import CipherFS.Core.Progress.Quiet

/-!
# Trackers and their shares

The rules for `ProgressTracker`. What the parts of an operation hold is a share of
a phase and, besides, whatever `Φ` says of the decrypted chunks of a batch.
-/

namespace CipherFS

open WorldProg Prog

variable {α δ : Type}

/-- All shares of the phase that are out come to the first part of `g`. -/
def Metering (p q : OperationPhase) (total : UInt64) (Φ : δ → World → Prop)
    (g : (Nat × Nat) × δ) (w : World) : Prop :=
  Meter p q total g.1 w.control ∧ Φ g.2 w

/-- The assertion is about the decrypted chunks. -/
def AboutChunks (Φ : δ → World → Prop) : Prop :=
  ∀ d w w', w'.chunks = w.chunks → Φ d w → Φ d w'

variable {p q : OperationPhase} {total : UInt64} {Φ : δ → World → Prop}
  {F : (Nat × Nat) × δ → Prop} {g : (Nat × Nat) × δ} {reporter : Reporter}
  {w w' : World} {ls : List (Label WorldInput EnvAction)} {t t' : Task World WorldInput Error}

/-! ## Everybody else -/

/-- Nobody else has a counter of this run. -/
theorem World.completed_of_env {a : EnvAction} (h : w.env a = some w') :
    w'.control.completed = w.control.completed := by
  have hinstall : ∀ {u u' : World} {p : Path} {node : FsNode}, u.install p node = some u' →
      u'.control.completed = u.control.completed := by
    intro u u' p node h
    unfold World.install at h
    split at h
    · rw [← Option.some.inj h]
    · cases h
  cases a with
  | cancel => rw [← Option.some.inj h]
  | mkdir p => exact hinstall h
  | mkfile p inode =>
      rw [World.env] at h
      split at h
      · exact (hinstall h).trans rfl
      · cases h
  | mklink p target => exact hinstall h
  | mkspecial p => exact hinstall h
  | modify n inode =>
      rw [World.env] at h
      split at h
      · rw [← Option.some.inj h]
        rfl
      · cases h

theorem Metering.env (hΦ : AboutChunks Φ) (h : Metering p q total Φ g w) {a : EnvAction}
    (ha : w.env a = some w') : Metering p q total Φ g w' := by
  have hi := World.interferes_of_env ha
  have hevents : w'.control.events = w.control.events ++ [] := by
    rw [hi.events, List.append_nil]
  exact ⟨h.1.log hevents (congrFun (World.completed_of_env ha) q) nofun (.inl nofun),
    hΦ _ w w' hi.chunks h.2⟩

/-- The phase has not begun. -/
def Unbegun (p q : OperationPhase) (w : World) : Prop :=
  p.reports w.control.events = [] ∧ w.control.completed q = 0

theorem Unbegun.start (fs : Fs) (nextOther : Nat) : Unbegun p q (World.start fs nextOther) :=
  ⟨rfl, rfl⟩

/-- Everything is owed. -/
theorem Unbegun.metering (h : Unbegun p q w) {d : δ} (hd : Φ d w) :
    Metering p q total Φ ((total.toNat + 1, 0), d) w := ⟨.inl ⟨h.1, h.2, rfl⟩, hd⟩

/-- A phase does not begin in a program that is quiet about it. -/
theorem Unbegun.run {U : α → Prop} {m : WorldProg α} (hm : Yields (quietly (·.Outside p) q) U m)
    (hw : Unbegun p q w)
    (hrun : run (interleave World.env) (m (fun _ => .done) .fail, w) ls = some (t, w')) :
    Unbegun p q w' := by
  refine hm.run_keeps (P := Unbegun p q) (fun hf i w r w' hstep h => ?_) (fun w a w' ha h => ?_)
    hw hrun
  · obtain ⟨⟨es, hevents, hes⟩, hcounter, -⟩ := hf i w r w' hstep
    refine ⟨?_, hcounter.trans h.2⟩
    rw [hevents, OperationPhase.reports_append_beside fun e he => (hes e he).beside]
    exact h.1
  · refine ⟨?_, (congrFun (World.completed_of_env ha) q).trans h.2⟩
    rw [(World.interferes_of_env ha).events]
    exact h.1

theorem Unbegun.executes {U : α → Prop} {m : WorldProg α} {r : Result α}
    (hm : Yields (quietly (·.Outside p) q) U m) (hw : Unbegun p q w)
    (hexec : m.Executes World.env w ls r w') : Unbegun p q w' := by
  have hrun := hexec (fun _ => .done) .fail []
  rw [List.append_nil] at hrun
  exact hw.run hm hrun

/-- A phase that has not begun has not been completed either. -/
theorem Unbegun.measured (h : Unbegun p q w) {ended : Prop} (hend : ¬ended) :
    Measured p total.toNat ended w.control.events := by
  have hmeter : Meter p q total (total.toNat + 1, 0) w.control := .inl ⟨h.1, h.2, rfl⟩
  exact hmeter.measured fun hended => absurd hended hend

/-- The events of a run are those of its program. -/
theorem quiet_run_events {ok : OperationEvent → Prop} {U : α → Prop} {m : WorldProg α}
    (hm : Yields (quietly ok q) U m) (hw : ∀ e ∈ w.control.events, ok e)
    (hrun : run (interleave World.env) (m (fun _ => .done) .fail, w) ls = some (t, w')) :
    ∀ e ∈ w'.control.events, ok e := by
  refine hm.run_keeps (P := fun w => ∀ e ∈ w.control.events, ok e)
    (fun hf i w r w' hstep h => ?_) (fun w a w' ha h => ?_) hw hrun
  · obtain ⟨⟨es, hevents, hes⟩, -⟩ := hf i w r w' hstep
    rw [hevents]
    exact List.forall_mem_append.mpr ⟨h, hes⟩
  · rw [(World.interferes_of_env ha).events]
    exact h

/-! ## The rules -/

/-- What a tracker of `q` reports reaches the frontend as progress of `p`. -/
structure Reporter.Shows (reporter : Reporter) (q p : OperationPhase) : Prop where
  progress : ∀ completed total, reporter (.progress ⟨q, completed, total⟩) =
    some (.progress ⟨p, completed, total⟩)
  started : ∀ e, reporter (.phaseStarted q) = some e → e.Beside p

theorem Reporter.frontend_shows (p : OperationPhase) : Reporter.frontend.Shows p p where
  progress _ _ := rfl
  started e he := by
    obtain rfl := Option.some.inj he
    exact fun _ heq => nomatch heq

variable [AddCommMonoid δ]

/-- A program that is quiet about the phase. It may start other phases when nothing
of this one is running. -/
theorem settles_quiet (hΦ : AboutChunks Φ) {ok : OperationEvent → Prop} {U : α → Prop}
    {m : WorldProg α} (hm : Yields (quietly ok q) U m) (hok : ∀ e, ok e → e.Beside p)
    (hs : (∀ e, ok e → e.Within) ∨
      ∀ frame, F frame → (g + frame).1 = (total.toNat + 1, 0) ∨ (g + frame).1.1 = 0) :
    Settles (Metering p q total Φ) F g m fun a g' => U a ∧ g' = g := by
  refine hm.settles fun hf i w r w' frame hstep hF hw => ?_
  obtain ⟨⟨es, hevents, hes⟩, hcounter, hchunks⟩ := hf i w r w' hstep
  refine ⟨hw.1.log hevents hcounter (fun e he => hok e (hes e he)) ?_, hΦ _ w w' hchunks hw.2⟩
  exact hs.imp (fun h e he => h e (hes e he)) fun h => h frame hF

/-- A program without events. -/
theorem settles_silent (hΦ : AboutChunks Φ) {U : α → Prop} {m : WorldProg α}
    (hm : Yields (quietly (fun _ => False) q) U m) :
    Settles (Metering p q total Φ) F g m fun a g' => U a ∧ g' = g :=
  settles_quiet hΦ hm (fun _ => False.elim) (.inl fun _ => False.elim)

/-- `ProgressTracker::new` begins the phase, or repeats its beginning. -/
theorem settles_newTracker (hΦ : AboutChunks Φ) (hr : reporter.Shows q p) {d : δ} {n : Nat × Nat}
    (hn : n = (total.toNat + 1, 0) ∨ n.1 = total.toNat ∧ reporter (.phaseStarted q) = none)
    {k : Nat} :
    Settles (Metering p q total Φ) (· = 0) (n, d)
      (ProgressTracker.new q total reporter : WorldProg ProgressTracker)
      fun t g' => t = ⟨q, total, reporter⟩ ∧ g' = ((total.toNat, k), d) := by
  unfold ProgressTracker.new
  refine .bind (V := fun _ g' => g' = (n, d)) ?_ fun _ g hg => ?_
  · let ok : OperationEvent → Prop := fun e => reporter (.phaseStarted q) = some e
    have hquiet : Built (quietly ok q) (Prog.report reporter (.phaseStarted q) : WorldProg Unit) :=
      quiet_report fun e he => he
    refine (settles_quiet hΦ hquiet hr.started ?_).conseq fun _ g hg => hg.2
    rcases hn with rfl | ⟨-, hnone⟩
    · right
      rintro frame rfl
      exact .inl rfl
    · left
      intro e he
      exact absurd (hnone.symm.trans he) nofun
  subst hg
  refine .bind (V := fun _ g' => g' = ((total.toNat, k), d)) (.call ?_) fun _ g hg => ?_
  · rintro i w frame rfl ⟨hmeter, hheld⟩
    refine ⟨((total.toNat, k), d), ⟨.inr ?_, hΦ _ w _ rfl hheld⟩, fun _ _ => rfl⟩
    refine hmeter.begin ?_ (by simp only [hr.progress]; rfl) rfl
    exact hn.imp id And.left
  subst hg
  refine .bind (V := fun _ g' => g' = ((total.toNat, k), d)) (.call ?_) fun _ g hg => ?_
  · rintro i w frame rfl ⟨hmeter, hheld⟩
    refine ⟨((total.toNat, k), d), ⟨.inr ?_, hΦ _ w _ rfl hheld⟩, fun _ _ => rfl⟩
    have hrunning := hmeter.running (.inr (le_refl total.toNat))
    exact Running.reset hrunning rfl (if_pos rfl)
  · exact .pure ⟨rfl, hg⟩

/-- `advance` pays its amount. -/
theorem settles_advance (hΦ : AboutChunks Φ) (hr : reporter.Shows q p) {amount : UInt64}
    {n k k' : Nat} {d : δ}
    (hrun : ∀ frame, F frame → k + frame.1.2 ≠ 0 ∨ amount.toNat + n + frame.1.1 ≤ total.toNat) :
    Settles (Metering p q total Φ) F ((amount.toNat + n, k), d)
      (ProgressTracker.advance ⟨q, total, reporter⟩ amount : WorldProg Unit)
      fun _ g' => g' = ((n, k'), d) := by
  refine .call fun i w frame hF ⟨hmeter, hheld⟩ => ?_
  refine ⟨((n, k'), d), ⟨.inr ?_, hΦ _ w _ rfl hheld⟩, fun _ _ => rfl⟩
  have hrunning := hmeter.running (hrun frame hF)
  simp only [Prod.fst_add, Nat.add_assoc] at hrunning
  exact hrunning.advance (by simp only [hr.progress]; rfl) (if_pos rfl)

/-- A running phase is shared in any number of parts. -/
theorem exchange_parts {n k k' : Nat} {d : δ}
    (hrun : ∀ frame, F frame → k + frame.1.2 ≠ 0 ∨ n + frame.1.1 ≤ total.toNat) :
    Exchange (Metering p q total Φ) F ((n, k), d) ((n, k'), d) := by
  rintro frame w hF ⟨hmeter, hheld⟩
  exact ⟨.inr (hmeter.running (hrun frame hF)), hheld⟩

/-- **A parallel loop whose iterations owe the parts of a sum pays the sum.** -/
theorem settles_parts {β : Type} {f : β → WorldProg Unit} {xs : List β} {amount : β → Nat}
    {n k : Nat} {d : δ} (hsum : (xs.map amount).sum = n)
    (hrun : ∀ frame, F frame → k + frame.1.2 ≠ 0 ∨ n + frame.1.1 ≤ total.toNat)
    (hf : ∀ x ∈ xs, Settles (Metering p q total Φ) (fun _ => True) ((amount x, 1), 0) (f x)
      fun _ g' => g' = ((0, 0), 0)) :
    Settles (Metering p q total Φ) F ((n, k), d) (Prog.parForEach xs f)
      fun _ g' => g' = ((0, 0), d) := by
  have hshares : (xs.map fun x => (((amount x, 1), 0) : (Nat × Nat) × δ)).sum =
      ((n, xs.length), 0) := by
    rw [← hsum]
    clear hsum hf
    induction xs with
    | nil => rfl
    | cons x rest ih =>
        rw [List.map_cons, List.sum_cons, ih, List.map_cons, List.sum_cons, List.length_cons]
        simp [Nat.add_comm]
  have hpar : Settles (Metering p q total Φ) F ((n, k), d) (Prog.parForEach xs f)
      fun _ g' => g' = (xs.map fun _ => ((0, 0), 0)).sum + ((0, 0), d) := by
    refine .parForEach ?_ hf
    rw [hshares]
    simp only [Prod.mk_add_mk, add_zero, zero_add]
    exact exchange_parts hrun
  refine hpar.conseq fun _ g hg => ?_
  rw [hg]
  simp

/-- **What the frontend sees of a phase that is paid in full.** -/
theorem measured_of_settles (hΦ : AboutChunks Φ) {k : Nat} {d : δ}
    (h : t.Settles (Metering p q total Φ) (· = 0) (fun _ => True) ((0, k), d) g)
    (hw : Metering p q total Φ g w)
    (hrun : run (interleave World.env) (t, w) ls = some (t', w')) :
    Measured p total.toNat t'.isDone w'.control.events := by
  obtain ⟨g', -, hw', hsettles⟩ := h.run trivial hw (fun _ _ _ _ ha hg => hg.env hΦ ha) hrun
  cases hdone : t'.isDone with
  | false => exact hw'.1.measured nofun
  | true =>
      rw [Task.isDone_iff.mp hdone] at hsettles
      exact (hsettles.of_done hw').1.measured fun _ => rfl

end CipherFS
