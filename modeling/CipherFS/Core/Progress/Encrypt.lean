import CipherFS.Core.Progress.Tally

/-!
# The progress of the encryption

The tasks of `pack_inner` owe the sizes of their files, and the chunk tasks of a
file the lengths of its chunks. What comes before and after them is quiet about the
encryption; it may start other phases, since nothing is owed by then.
-/

namespace CipherFS

open WorldProg Prog V2 Result

variable {α Key δ : Type} {ok : OperationEvent → Prop} {p q : OperationPhase}

/-! ## Other phases -/

/-- A tracker of another phase. -/
theorem yields_quiet_newTracker {phase : OperationPhase} {total : UInt64} {reporter : Reporter}
    (hq : q ≠ phase) (hr : ∀ e e', e.phase? = some phase → reporter e = some e' → ok e') :
    Yields (quietly ok q) (fun t => t = ⟨phase, total, reporter⟩)
      (ProgressTracker.new phase total reporter : WorldProg ProgressTracker) := by
  unfold ProgressTracker.new
  refine .bind (quiet_report fun e' he => hr _ e' rfl he) fun _ _ => ?_
  refine .bind (quiet_report fun e' he => hr _ e' rfl he) fun _ _ => ?_
  refine .bind (kept_onControl fun w => ⟨⟨[], (List.append_nil _).symm, nofun⟩, ?_, rfl⟩)
    fun _ _ => .pure rfl
  exact if_neg hq

theorem quiet_advance {t : ProgressTracker} (hq : q ≠ t.phase)
    (hr : ∀ e e', e.phase? = some t.phase → t.reporter e = some e' → ok e') (amount : UInt64) :
    Built (quietly ok q) (t.advance amount : WorldProg Unit) := by
  refine kept_onControl fun w => ⟨⟨_, rfl, fun e' he' => ?_⟩, if_neg hq, rfl⟩
  exact hr _ e' rfl (Option.mem_toList.mp he')

/-- A verification that reports only as events of `ok`. -/
theorem quiet_verifyAll {R : Reader Key} {opened : OpenedFile} {reporter : Reporter}
    (hq : q ≠ .verify) (hr : ∀ e e', e.phase? = some .verify → reporter e = some e' → ok e') :
    Built (quietly ok q) (verifyAllWithControl R opened reporter) := by
  unfold verifyAllWithControl
  refine Yields.bind (quiet_require _) fun total _ => ?_
  refine .bind (yields_quiet_newTracker hq hr) fun t ht => ?_
  subst ht
  refine .parForEach fun e _ => .parForEach fun k _ => ?_
  unfold verifyChunk
  refine .bind quiet_check fun _ _ => .bind (kept_context quiet_decryptStored) fun _ _ => ?_
  exact .bind (quiet_require _) fun amount _ => quiet_advance hq hr amount

namespace Pack

variable {R : Reader Key} {req : PackRequest} {prepared : Prepared} {temp : Path}

theorem quiet_ensureUnchanged (snapshot : SourceSnapshot) (file : FsNode) :
    Built (quietly ok q) (ensureUnchanged snapshot file) :=
  .bind (quiet_fromFile file) fun _ => quiet_require _

/-- The container is written without events of other phases. -/
theorem quiet_writeContainer (hp : p ≠ .encrypt) (hq : q ≠ .encrypt) (output : Nat) :
    Built (quietly (·.Outside p) q) (writeContainer R prepared output) := by
  have hr : ∀ e e', e.phase? = some .encrypt → Reporter.frontend e = some e' → e'.Outside p := by
    intro e e' he he' h
    obtain rfl := Option.some.inj he'
    exact hp (Option.some.inj (h.symm.trans he))
  unfold writeContainer
  refine .bind (quiet_require _) fun dataStart => .bind (quiet_require _) fun size => ?_
  refine .bind (quiet_perform (remote_setLen _ _)) fun _ => .bind (quiet_require _) fun image => ?_
  refine .bind (quiet_perform (remote_writeAllAt _ _ _)) fun _ => ?_
  refine .bind (quiet_perform (remote_writeAllAt _ _ _)) fun _ => ?_
  refine Yields.bind (yields_quiet_newTracker hq hr) fun t ht => ?_
  subst ht
  refine .bind (.parForEach fun source _ => ?_) fun _ _ => quiet_reading
  refine .bind quiet_check fun _ _ => .bind (quiet_require _) fun entry _ => ?_
  unfold encryptSourceFile
  refine .bind (kept_context (quiet_openFile _)) fun file _ => ?_
  refine .bind (quiet_ensureUnchanged _ _) fun _ _ => .bind (quiet_require _) fun key _ => ?_
  refine .bind (.parForEach fun k _ => ?_) fun _ _ => quiet_ensureUnchanged _ _
  unfold encryptStoredChunk
  refine .bind quiet_check fun _ _ => .bind (quiet_require _) fun span _ => ?_
  refine .bind (kept_context quiet_reading) fun buffer _ => .bind (quiet_require _) fun write _ => ?_
  exact .bind (quiet_perform (remote_writeAllAt _ _ _)) fun _ _ => quiet_advance hq hr _

/-- What the self-verification reports. -/
theorem selfVerifyReporter_outside (hp : p ≠ .selfVerify) (e e' : OperationEvent)
    (he : e.phase? = some .verify) (he' : selfVerifyReporter e = some e') : e'.Outside p := by
  cases e with
  | progress r =>
      obtain rfl := Option.some.inj he'
      rw [if_pos (Option.some.inj he)]
      exact fun h => hp (Option.some.inj h).symm
  | _ => cases he'

theorem quiet_selfVerify (hkey : p ≠ .keyDerivation) (hself : p ≠ .selfVerify) (hq : q ≠ .verify)
    (total : UInt64) : Built (quietly (·.Outside p) q) (selfVerify R req temp total) := by
  unfold selfVerify
  refine .bind (quiet_event fun h => hkey (Option.some.inj h).symm) fun _ => ?_
  refine .bind (kept_context (yields_quiet_openStored R temp req.password).built) fun opened => ?_
  refine .bind quiet_check fun _ => ?_
  refine .bind (quiet_event fun h => hself (Option.some.inj h).symm) fun _ => ?_
  refine .bind (quiet_event fun h => hself (Option.some.inj h).symm) fun _ => ?_
  exact kept_context (quiet_verifyAll hq (selfVerifyReporter_outside hself))

theorem quiet_publishContainer (hp : p ≠ .commit) :
    Built (quietly (·.Outside p) q) (publishContainer req temp) := by
  unfold publishContainer
  refine .bind (quiet_event fun h => hp (Option.some.inj h).symm) fun _ => ?_
  refine .bind (quiet_event nofun) fun _ => ?_
  refine .bind (kept_context (quiet_perform (remote_renameNoReplace _ _))) fun _ => ?_
  refine .bind (Yields.attempt (quiet_syncParent _)).built fun synced => ?_
  cases synced with
  | ok _ => exact quiet_event nofun
  | error e => exact .bind (quiet_event nofun) fun _ => quiet_event nofun

/-! ## The encryption -/

section Encrypt

variable [AddCommMonoid δ] {total : UInt64} {Φ : δ → World → Prop} {job : EncryptJob}

/-- A chunk task pays the length of its chunk. -/
theorem settles_encryptStoredChunk (hΦ : AboutChunks Φ)
    (hjob : job.progress = ⟨.encrypt, total, .frontend⟩) (file : FsNode) (key : Key) (k : UInt64) :
    Settles (Metering .encrypt .encrypt total Φ) (fun _ => True) ((job.entry.chunkLen k, 1), 0)
      (encryptStoredChunk R job file key k) fun _ g' => g' = ((0, 0), 0) := by
  unfold encryptStoredChunk
  refine (settles_silent hΦ quiet_check).bind fun _ g hg => ?_
  rw [hg.2]
  refine (settles_silent hΦ (yields_quiet_require _)).bind fun span g hg => ?_
  rw [hg.2, ← sourceSpan_toNat hg.1, hjob]
  refine (settles_silent hΦ (kept_context quiet_reading)).bind fun buffer g hg => ?_
  rw [hg.2]
  refine (settles_silent hΦ (quiet_require _)).bind fun write g hg => ?_
  rw [hg.2]
  refine (settles_silent hΦ (quiet_perform (remote_writeAllAt _ _ _))).bind fun _ g hg => ?_
  rw [hg.2]
  exact settles_advance (n := 0) hΦ (Reporter.frontend_shows .encrypt) fun frame _ =>
    .inl (by omega)

/-- The tasks of one file pay its size. -/
theorem settles_encryptSourceFile (hΦ : AboutChunks Φ)
    (hjob : job.progress = ⟨.encrypt, total, .frontend⟩) (he : job.entry.Chunked)
    (dek : ByteArr 32) :
    Settles (Metering .encrypt .encrypt total Φ) (fun _ => True) ((job.entry.size.toNat, 1), 0)
      (encryptSourceFile R dek job) fun _ g' => g' = ((0, 0), 0) := by
  unfold encryptSourceFile
  refine (settles_silent hΦ (kept_context (quiet_openFile _))).bind fun file g hg => ?_
  rw [hg.2]
  refine (settles_silent hΦ (quiet_ensureUnchanged _ _)).bind fun _ g hg => ?_
  rw [hg.2]
  refine (settles_silent hΦ (quiet_require _)).bind fun key g hg => ?_
  rw [hg.2]
  refine Settles.bind (settles_parts (sum_chunkLen he) (fun frame _ => .inl (by omega)) fun k _ =>
    settles_encryptStoredChunk hΦ hjob file key k) fun _ g hg => ?_
  rw [hg]
  exact (settles_silent hΦ (quiet_ensureUnchanged _ _)).conseq fun _ _ h => h.2

/-- **The container pays the whole total.** -/
theorem settles_writeContainer (hΦ : AboutChunks Φ) (htally : Tally prepared.scan) {d : δ}
    (htotal : prepared.scan.totalPlaintext = total) (output : Nat) :
    Settles (Metering .encrypt .encrypt total Φ) (· = 0) ((total.toNat + 1, 0), d)
      (writeContainer R prepared output) fun _ g' => g' = ((0, 0), d) := by
  subst htotal
  unfold writeContainer
  refine (settles_silent hΦ (quiet_require _)).bind fun dataStart g hg => ?_
  rw [hg.2]
  refine (settles_silent hΦ (quiet_require _)).bind fun size g hg => ?_
  rw [hg.2]
  refine (settles_silent hΦ (quiet_perform (remote_setLen _ _))).bind fun _ g hg => ?_
  rw [hg.2]
  refine (settles_silent hΦ (quiet_require _)).bind fun image g hg => ?_
  rw [hg.2]
  refine (settles_silent hΦ (quiet_perform (remote_writeAllAt _ _ _))).bind fun _ g hg => ?_
  rw [hg.2]
  refine (settles_silent hΦ (quiet_perform (remote_writeAllAt _ _ _))).bind fun _ g hg => ?_
  rw [hg.2]
  refine (settles_newTracker (k := 0) hΦ (Reporter.frontend_shows .encrypt) (.inl rfl)).bind
    fun tracker g hg => ?_
  obtain ⟨rfl, rfl⟩ := hg
  refine Settles.bind (settles_parts htally.sum_owed ?_ ?_) fun _ g hg => ?_
  · rintro frame rfl
    exact .inr (le_refl _)
  · rintro ⟨id, snapshot⟩ hsource
    obtain ⟨e, hfind, hchunked, howed⟩ := htally.exists_entry hsource
    refine (settles_silent hΦ quiet_check).bind fun _ g hg => ?_
    rw [hg.2]
    refine (settles_silent hΦ (yields_quiet_require _)).bind fun entry g hg => ?_
    obtain rfl : e = entry := Option.some.inj (hfind.symm.trans (ofOption_eq_ok.mp hg.1))
    rw [hg.2, howed]
    exact settles_encryptSourceFile hΦ rfl hchunked _
  · rw [hg]
    exact (settles_silent hΦ quiet_reading).conseq fun _ _ h => h.2

/-- **The rest of a packing pays the total of its scan.** -/
theorem settles_pack (hΦ : AboutChunks Φ) (htally : Tally prepared.scan)
    (htotal : prepared.scan.totalPlaintext = total) :
    Settles (Metering .encrypt .encrypt total Φ) (· = 0) ((total.toNat + 1, 0), 0)
      (chooseTemporaryPath req >>= fun temp => Prog.onError (do
        stageContainer R req prepared temp
        publishContainer req temp) (dropTemp temp)) fun _ g' => g' = ((0, 0), 0) := by
  -- before and after the encryption, nothing is running
  have hquiet : ∀ {γ : Type} {m : WorldProg γ} {n : Nat}, n = total.toNat + 1 ∨ n = 0 →
      Built (quietly (·.Outside .encrypt) .encrypt) m →
      Settles (Metering .encrypt .encrypt total Φ) (· = 0) ((n, 0), 0) m
        fun _ g' => g' = ((n, 0), 0) := by
    intro γ m n hn hm
    refine (settles_quiet hΦ hm (fun e he => he.beside) (.inr ?_)).conseq fun _ _ h => h.2
    rintro frame rfl
    rcases hn with rfl | rfl
    · exact .inl rfl
    · exact .inr rfl
  refine (hquiet (.inl rfl) (quiet_chooseTemporaryPath req)).bind fun temp g hg => ?_
  rw [hg]
  refine .onError ?_ fun g' => (settles_silent hΦ (quiet_dropTemp temp)).conseq fun _ _ _ => trivial
  unfold stageContainer
  refine Settles.bind (V := fun _ g' => g' = ((0, 0), 0)) ?_ fun _ g hg => ?_
  · refine (hquiet (.inl rfl) (kept_context (quiet_perform (remote_createNew temp)))).bind
      fun output g hg => ?_
    rw [hg]
    refine (hquiet (.inl rfl) (quiet_event (by nofun))).bind fun _ g hg => ?_
    rw [hg]
    refine (settles_writeContainer hΦ htally htotal output).bind fun _ g hg => ?_
    rw [hg]
    refine hquiet (.inr rfl) (.bind quiet_check fun _ => ?_)
    refine .bind (quiet_selfVerify (by decide) (by decide) (by decide) _) fun _ => ?_
    exact .bind quiet_check fun _ => quiet_check
  · rw [hg]
    exact hquiet (.inr rfl) (quiet_publishContainer (by decide))

end Encrypt

end Pack

end CipherFS
