import CipherFS.Core.Progress.Encrypt
import CipherFS.Core.Progress.Reopen

/-!
# The progress of packing

The self-verification counts in the tracker of a verification and reports as a
phase of its own. Its total is taken from the index that it opens, which is the one
of the scan, so both phases of a packing come to the total of the scan.
-/

namespace CipherFS

open WorldProg Prog V2 Result
open Extract (Holds)

variable {Key : Type}

/-- A serialized index is a `Vec`, which has at most `isize::MAX` bytes. -/
def V2.IndexCodec.Bounded (K : IndexCodec) : Prop := ∀ i b, K.encode i = some b → b.length < 2 ^ 63

namespace Pack

variable {R : Reader Key} {req : PackRequest} {prepared : Prepared} {opened : OpenedFile}
  {temp : Path} {walk : List (Result Path)}

/-! ## The parts of a packing -/

/-- `execute` up to the header. -/
def prepareInPool (R : Reader Key) (walk : List (Result Path)) (req : PackRequest) :
    WorldProg Prepared := do
  (perform Op.sync).context "Unable to create worker thread pool"
  prepare R walk req

/-- What `pack_inner` does with the header. -/
def finish (R : Reader Key) (req : PackRequest) (prepared : Prepared) : WorldProg Unit := do
  let temp ← chooseTemporaryPath req
  Prog.onError (do
    stageContainer R req prepared temp
    publishContainer req temp) (dropTemp temp)

theorem execute_eq : execute R walk req = prepareInPool R walk req >>= finish R req := rfl

/-- The part of `stageContainer` until the container is open again. -/
def reopenContainer (R : Reader Key) (req : PackRequest) (prepared : Prepared) (temp : Path) :
    WorldProg OpenedFile := do
  let output ← (perform (Op.createNew temp)).context "Unable to create temporary container"
  Prog.event (.temporaryArtifact .packContainer temp)
  writeContainer R prepared output
  Prog.check
  Prog.event (.phaseStarted .keyDerivation)
  let opened ← (openStored R temp req.password).context
    "Self-verification could not reopen v2 container"
  Prog.check
  return opened

/-- The part of `stageContainer` from there on. -/
def checkContainer (R : Reader Key) (total : UInt64) (opened : OpenedFile) : WorldProg Unit := do
  Prog.event (.phaseStarted .selfVerify)
  Prog.event (.progress ⟨.selfVerify, 0, total⟩)
  (verifyAllWithControl R opened selfVerifyReporter).context
    "Self-verification of packed container failed"
  Prog.check
  Prog.check

theorem stageContainer_eq : stageContainer R req prepared temp =
    reopenContainer R req prepared temp >>= checkContainer R prepared.scan.totalPlaintext := rfl

/-! ## The index that is opened -/

theorem Written.length (hw : Written R req prepared) (hC : R.crypto.Correct)
    (hB : R.codec.Bounded) :
    prepared.header.indexSize.toNat = prepared.encryptedIndex.length := by
  obtain ⟨serialized, key, hencode, -, hencrypt⟩ := hw.index
  have hserialized := hB _ _ hencode
  have hlen := hC.length_encrypt hencrypt
  have hlt : prepared.encryptedIndex.length < 2 ^ 64 := by omega
  rw [← hw.size]
  exact UInt64.toNat_ofNat_of_lt' hlt

theorem holds_reopenContainer (hC : R.crypto.Correct) (hK : R.codec.Lawful)
    (hB : R.codec.Bounded) (hw : Written R req prepared) :
    Holds (fun _ => True) (fun _ => True) (reopenContainer R req prepared temp)
      (fun opened _ => Reopened R prepared opened) fun _ _ => True := by
  have hsize := hw.length hC hB
  have hevent : ∀ (n : Nat) (parts : List FileWrite) (e : OperationEvent),
      Holds (fun _ => True) (Sealed temp n parts) (Prog.event e : WorldProg Unit)
        (fun _ => Sealed temp n parts) fun _ _ => True := fun n parts e =>
    .modify Sealed.stable (fun _ _ => trivial) fun w hw => ⟨hw.place, hw.parts⟩
  have hcheck : ∀ (n : Nat) (parts : List FileWrite),
      Holds (fun _ => True) (Sealed temp n parts) (Prog.check : WorldProg Unit)
        (fun _ => Sealed temp n parts) fun _ _ => True := fun n parts =>
    (holds_keeping (kept_check fun _ _ hw => ⟨hw.place, hw.parts⟩) Sealed.stable).conseq
      (fun _ h => h) (fun _ _ h => h.2) fun _ _ h => h
  unfold reopenContainer
  refine .bind (Q := fun n => Sealed temp n []) (.mapError ?_) fun n => ?_
  · refine holds_perform (fun _ _ _ _ => trivial) (fun _ _ _ _ _ _ => trivial)
      fun i w n w' _ hop => ?_
    have hf := Route.io_ok hop
    split at hf
    · cases (Prod.mk.inj hf).1
    · obtain ⟨hn, rfl⟩ := Prod.mk.inj hf
      obtain rfl := Except.ok.inj hn
      exact ⟨FileTree.put_self, nofun⟩
  refine .bind (hevent n [] _) fun _ => .bind (holds_writeContainer hsize) fun _ => ?_
  refine .bind (hcheck n _) fun _ => .bind (hevent n _ _) fun _ => ?_
  refine .bind (.mapError (holds_openStored hC hK hw hsize)) fun opened => ?_
  refine .bind (Q := fun _ _ => Reopened R prepared opened) ?_ fun _ => .pure fun _ h => h
  refine .call (fun _ _ h _ => h) fun i w _ hw => ⟨trivial, ?_⟩
  dsimp only
  split
  · trivial
  · exact hw

theorem Reopened.total (h : Reopened R prepared opened) (hw : Tally prepared.scan) :
    verifyTotal R.order opened.index = .ok prepared.scan.totalPlaintext := by
  have hvalid : Validated R opened := ⟨_, h⟩
  obtain ⟨total, htotal, -, hsize⟩ := hvalid.totals
  obtain ⟨haccepted, hv⟩ := validateIndex_eq_ok.mp h
  have hperm : opened.index.entries.values.Perm prepared.scan.entries := by
    rw [hv]
    exact (R.order.perm _).symm.trans (haccepted.values_indexOf_perm R.order)
  rw [htotal]
  congr 1
  exact UInt64.toNat_inj.mp (by rw [hsize, totalSize_perm hperm, hw.total])

/-! ## The phases -/

theorem quiet_reopenContainer :
    Built (quietly (·.Outside .selfVerify) .verify) (reopenContainer R req prepared temp) := by
  unfold reopenContainer
  refine .bind (kept_context (quiet_perform (remote_createNew temp))) fun output => ?_
  refine .bind (quiet_event nofun) fun _ => ?_
  refine .bind (quiet_writeContainer (by decide) (by decide) output) fun _ => ?_
  refine .bind quiet_check fun _ => .bind (quiet_event (by nofun)) fun _ => ?_
  refine .bind (kept_context (yields_quiet_openStored R temp req.password).built) fun opened => ?_
  exact .bind quiet_check fun _ => .pure _

theorem selfVerifyReporter_shows : Reporter.Shows selfVerifyReporter .verify .selfVerify where
  progress _ _ := rfl
  started _ he := nomatch he

/-- **The self-verification pays the total of the scan.** -/
theorem settles_checkContainer {δ : Type} [AddCommMonoid δ] {Φ : δ → World → Prop}
    (hΦ : AboutChunks Φ) (hw : Tally prepared.scan) (ho : Reopened R prepared opened) :
    Settles (Metering .selfVerify .verify prepared.scan.totalPlaintext Φ) (· = 0)
      ((prepared.scan.totalPlaintext.toNat + 1, 0), 0)
      ((checkContainer R prepared.scan.totalPlaintext opened >>= fun _ =>
        publishContainer req temp).onError (dropTemp temp)) fun _ g' => g' = ((0, 0), 0) := by
  refine .onError ?_ fun g' => (settles_silent hΦ (quiet_dropTemp temp)).conseq fun _ _ _ => trivial
  generalize htotal : prepared.scan.totalPlaintext = total
  have hverify := ho.total hw
  rw [htotal] at hverify
  refine Settles.bind (V := fun _ g' => g' = ((0, 0), 0)) ?_ fun _ g hg => ?_
  · unfold checkContainer
    refine Settles.bind (V := fun _ g' => g' = ((total.toNat + 1, 0), 0)) ?_ fun _ g hg => ?_
    · let ok : OperationEvent → Prop := fun e => e.Beside .selfVerify
      have hquiet : Built (quietly ok .verify) (Prog.event (.phaseStarted .selfVerify)) :=
        quiet_event fun _ h => nomatch h
      refine (settles_quiet hΦ hquiet (fun _ h => h) (.inr ?_)).conseq fun _ _ h => h.2
      rintro frame rfl
      exact .inl rfl
    subst hg
    refine Settles.bind (V := fun _ g' => g' = ((total.toNat, 0), 0)) (.call ?_) fun _ g hg => ?_
    · rintro i w frame rfl ⟨hmeter, hheld⟩
      refine ⟨((total.toNat, 0), 0), ⟨.inr ?_, hΦ _ w _ rfl hheld⟩, fun _ _ => rfl⟩
      exact hmeter.begin (.inl rfl) rfl rfl
    subst hg
    refine Settles.bind (.mapError (settles_verifyAll hΦ ⟨_, ho⟩ hverify selfVerifyReporter_shows
      (.inr ⟨rfl, rfl⟩))) fun _ g hg => ?_
    rw [hg]
    exact (settles_silent hΦ (Built.bind quiet_check fun _ => quiet_check)).conseq fun _ _ h => h.2
  · rw [hg]
    have hquiet : Built (quietly (·.Outside .selfVerify) .verify) (publishContainer req temp) :=
      quiet_publishContainer (by decide)
    refine (settles_quiet hΦ hquiet (fun _ h => h.beside) (.inr ?_)).conseq fun _ _ h => h.2
    rintro frame rfl
    exact .inr rfl

/-! ## The operation -/

variable {p q : OperationPhase} {fs : Fs} {nextOther : Nat} {w w' : World}
  {ls : List (Label WorldInput EnvAction)} {t : Task World WorldInput Error}

theorem yields_prepareInPool (hscan : p ≠ .scan) (hkey : p ≠ .keyDerivation) :
    Yields (quietly (·.Outside p) q) (Written R req) (prepareInPool R walk req) :=
  .bind (kept_context quiet_reading) fun _ _ => yields_prepare hscan hkey walk

/-- **The self-verification inside `pack` never reports as a verification.** -/
theorem outside_verify
    (hrun : run (interleave World.env) ((execute R walk req).task, World.start fs nextOther) ls =
      some (t, w)) : ∀ e ∈ w.control.events, e.Outside .verify := by
  have hquiet : Built (quietly (·.Outside .verify) .commit) (execute R walk req) := by
    rw [execute_eq]
    refine Yields.bind (yields_prepareInPool (by decide) (by decide)) fun prepared _ => ?_
    refine .bind (quiet_chooseTemporaryPath req) fun temp _ => .onError ?_ (quiet_dropTemp temp)
    refine Built.bind (.bind (kept_context (quiet_perform (remote_createNew temp))) fun n => ?_)
      fun _ => quiet_publishContainer (by decide)
    refine .bind (quiet_event (by nofun)) fun _ => ?_
    refine .bind (quiet_writeContainer (by decide) (by decide) n) fun _ => .bind quiet_check fun _ => ?_
    refine .bind (quiet_selfVerify (by decide) (by decide) (by decide) _) fun _ => ?_
    exact .bind quiet_check fun _ => quiet_check
  refine quiet_run_events hquiet (fun e he => ?_) hrun
  cases he

/-- What follows the preparation verifies itself with the total of the scan. -/
theorem measured_selfVerify (hC : R.crypto.Correct) (hK : R.codec.Lawful) (hB : R.codec.Bounded)
    (hw : Written R req prepared) (hstart : Unbegun .selfVerify .verify w)
    (hrun : run (interleave World.env) ((finish R req prepared).task, w) ls = some (t, w')) :
    Measured .selfVerify prepared.scan.totalPlaintext.toNat t.isDone w'.control.events := by
  have hchoose : Built (quietly (·.Outside .selfVerify) .verify) (chooseTemporaryPath req) :=
    quiet_chooseTemporaryPath req
  rcases hchoose.passed hrun with ⟨_, ls₂, temp, u, -, hexec, hrest⟩ | ⟨hdone, t', hstill⟩
  · have hunbegun := hstart.executes hchoose hexec
    have hcleanup : Built (quietly (·.Outside .selfVerify) .verify) (dropTemp temp) :=
      quiet_dropTemp temp
    have hreopen : Built (quietly (·.Outside .selfVerify) .verify)
        (reopenContainer R req prepared temp) := quiet_reopenContainer
    rcases hreopen.passed_onError hcleanup hrest with
      ⟨_, ls₄, opened, v, -, hexec', hrest'⟩ | ⟨hdone, t', hstill⟩
    · have hopened := (holds_reopenContainer hC hK hB hw).of_executes
        (fun _ a _ ha => .single ⟨a, ha⟩) trivial hexec'
      let Φ : Nat → World → Prop := fun _ _ => True
      have hΦ : AboutChunks Φ := fun _ _ _ _ _ => trivial
      exact measured_of_settles hΦ (settles_checkContainer hΦ hw.tally hopened).task
        ((hunbegun.executes hreopen hexec').metering trivial) hrest'
    · refine (hunbegun.run (.onError hreopen hcleanup) hstill).measured ?_
      rw [hdone]
      exact Bool.false_ne_true
  · refine (hstart.run hchoose hstill).measured ?_
    rw [hdone]
    exact Bool.false_ne_true

/-- **The progress of packing.** -/
theorem measured_pack (hC : R.crypto.Correct) (hK : R.codec.Lawful) (hB : R.codec.Bounded)
    (hrun : run (interleave World.env) ((execute R walk req).task, World.start fs nextOther) ls =
      some (t, w)) :
    (OperationPhase.encrypt.reports w.control.events = [] ∧
      OperationPhase.selfVerify.reports w.control.events = [] ∧ t.isDone = false) ∨
    ∃ ls₁ ls₂ prepared u, ls = ls₁ ++ ls₂ ∧
      (prepareInPool R walk req).Executes World.env (World.start fs nextOther) ls₁
        (.ok prepared) u ∧
      Measured .encrypt (totalSize prepared.scan.entries) t.isDone w.control.events ∧
      Measured .selfVerify (totalSize prepared.scan.entries) t.isDone w.control.events := by
  have hquiet : ∀ {p q : OperationPhase}, p ≠ .scan → p ≠ .keyDerivation →
      Yields (quietly (·.Outside p) q) (Written R req) (prepareInPool R walk req) :=
    yields_prepareInPool
  have hencrypt := hquiet (p := .encrypt) (q := .encrypt) nofun nofun
  have hself := hquiet (p := .selfVerify) (q := .verify) nofun nofun
  rcases hself.passed hrun with ⟨ls₁, ls₂, prepared, u, hls, hexec, hrest⟩ | ⟨hdone, t', hstill⟩
  · right
    have hw := hself.of_executes hexec
    refine ⟨ls₁, ls₂, prepared, u, hls, hexec, ?_, ?_⟩
    · let Φ : Nat → World → Prop := fun _ _ => True
      have hΦ : AboutChunks Φ := fun _ _ _ _ _ => trivial
      rw [← hw.tally.total]
      exact measured_of_settles hΦ (settles_pack hΦ hw.tally rfl).task
        (((Unbegun.start fs nextOther).executes hencrypt hexec).metering trivial) hrest
    · rw [← hw.tally.total]
      exact measured_selfVerify hC hK hB hw ((Unbegun.start fs nextOther).executes hself hexec) hrest
  · left
    exact ⟨((Unbegun.start fs nextOther).run hencrypt hstill).1,
      ((Unbegun.start fs nextOther).run hself hstill).1, hdone⟩

end Pack

end CipherFS
