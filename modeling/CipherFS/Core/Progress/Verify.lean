import CipherFS.Core.Progress.Tracker
import CipherFS.Core.ReadOnlyFs.Read
import CipherFS.Framework.Passage

/-!
# The progress of a verification

Every chunk task of `verify_all_with_control` owes the length of its chunk. The
lengths of the chunks of a file add up to its size, and the sizes of the files to
the total, so the counter comes to the total exactly when all tasks have ended.
-/

namespace CipherFS

open WorldProg Prog V2 Result

variable {Key δ : Type} [AddCommMonoid δ]

/-! ## Amounts -/

namespace V2

/-- The chunk count is the one for the size. -/
def Entry.Chunked (e : Entry) : Prop :=
  e.chunkCount.toNat = Chunking.count 4194304 e.size.toNat

/-- The length of the plaintext of a chunk. -/
def Entry.chunkLen (e : Entry) (k : UInt64) : Nat :=
  Chunking.len 4194304 e.size.toNat k.toNat

/-- The sum of the plaintext sizes of all files. -/
def totalSize (es : List Entry) : Nat :=
  ((es.filter Entry.isFile).map fun e => e.size.toNat).sum

variable {e : Entry} {k : UInt64}

theorem totalSize_append (es es' : List Entry) :
    totalSize (es ++ es') = totalSize es + totalSize es' := by
  rw [totalSize, List.filter_append, List.map_append, List.sum_append]
  rfl

theorem totalSize_perm {es es' : List Entry} (h : es.Perm es') : totalSize es = totalSize es' :=
  ((h.filter _).map _).sum_eq

theorem totalSize_file (h : e.kind = .file) : totalSize [e] = e.size.toNat := by
  rw [totalSize, List.filter_cons_of_pos (Entry.isFile_iff.mpr h)]
  simp

theorem totalSize_directory (h : e.kind = .directory) : totalSize [e] = 0 := by
  have hfile : e.isFile = false := Entry.not_isFile_iff.mpr h
  simp [totalSize, hfile]

/-- **The chunks of a file add up to its size.** -/
theorem sum_chunkLen (h : e.Chunked) : (e.chunkIndices.map e.chunkLen).sum = e.size.toNat := by
  have hlt := e.chunkCount.toNat_lt
  rw [Entry.chunkIndices, List.map_map]
  have hmap : (List.range e.chunkCount.toNat).map (e.chunkLen ∘ UInt64.ofNat) =
      (List.range (Chunking.count 4194304 e.size.toNat)).map
        (Chunking.len 4194304 e.size.toNat) := by
    rw [← h]
    refine List.map_congr_left fun i hi => ?_
    have hi := List.mem_range.mp hi
    rw [Function.comp_apply, Entry.chunkLen, UInt64.toNat_ofNat_of_lt' (Nat.lt_trans hi hlt)]
  rw [hmap]
  exact Chunking.sum_len (by decide)

/-- What is left of a file after an offset, cut to one chunk. -/
theorem toNat_min_remaining {offset remaining : UInt64}
    (hoffset : checkedMul k chunkSize = some offset)
    (hremaining : checkedSub e.size offset = some remaining) :
    (min chunkSize remaining).toNat = e.chunkLen k := by
  have hmul := checkedMul_eq_some_iff.mp hoffset
  have hsub := checkedSub_eq_some_iff.mp hremaining
  rw [chunkSize_toNat] at hmul
  rw [toNat_min, chunkSize_toNat, Entry.chunkLen, Chunking.len]
  omega

theorem verifyAmount_toNat {amount : UInt64} (h : verifyAmount e k = .ok amount) :
    amount.toNat = e.chunkLen k := by
  simp only [verifyAmount, bind_eq_ok, ofOption_eq_ok, ofSub_eq_ok, Except.ok.injEq] at h
  obtain ⟨offset, hoffset, remaining, hremaining, rfl⟩ := h
  exact toNat_min_remaining hoffset hremaining

theorem sourceSpan_toNat {span : UInt64 × UInt64} (h : sourceSpan e k = .ok span) :
    span.2.toNat = e.chunkLen k := by
  simp only [sourceSpan, bind_eq_ok, ofOption_eq_ok, ofSub_eq_ok, Except.ok.injEq] at h
  obtain ⟨offset, hoffset, remaining, hremaining, rfl⟩ := h
  exact toNat_min_remaining hoffset hremaining

end V2

section Totals

variable {R : Reader Key} {opened : OpenedFile}

/-- The entries that have been accepted. -/
theorem Validated.accepted (h : Validated R opened) :
    ∃ es, AcceptedIndex R.os opened.header es ∧ opened.index = indexOf es ∧
      opened.index.entries.values.Perm es := by
  obtain ⟨index, hindex⟩ := h
  obtain ⟨haccepted, hv⟩ := validateIndex_eq_ok.mp hindex
  refine ⟨index.entries, haccepted, hv, ?_⟩
  rw [hv]
  exact (R.order.perm _).symm.trans (haccepted.values_indexOf_perm R.order)

/-- Verification and extraction agree on the total of a validated container. -/
theorem Validated.totals (h : Validated R opened) :
    ∃ total, verifyTotal R.order opened.index = .ok total ∧
      extractionTotal R.order opened.index = .ok total ∧
      total.toNat = totalSize opened.index.entries.values := by
  obtain ⟨es, haccepted, hv, hperm⟩ := h.accepted
  obtain ⟨total, hverify, hextract, htotal⟩ := haccepted.totals_ok R.order
  rw [← hv] at hverify hextract
  refine ⟨total, hverify, hextract, htotal.trans ?_⟩
  rw [totalSize_perm hperm, totalSize, List.map_map]
  rfl

theorem Validated.chunked (h : Validated R opened) :
    ∀ e ∈ opened.index.entries.values, e.kind = .file → e.Chunked := by
  obtain ⟨es, haccepted, -, hperm⟩ := h.accepted
  intro e he hkind
  have haccept := (haccepted.entries e (hperm.mem_iff.mp he)).file hkind
  exact (encryptedFileSize_eq_ok.mp haccept.2).1

theorem Validated.root (h : Validated R opened) :
    ∀ e ∈ opened.index.entries.values, e.id = 1 → e.kind = .directory := by
  obtain ⟨es, haccepted, -, hperm⟩ := h.accepted
  exact fun e he hid => (haccepted.root_entry (hperm.mem_iff.mp he) hid).2.2.1

end Totals

/-! ## The loop -/

variable {p q : OperationPhase} {total : UInt64} {Φ : δ → World → Prop} {reporter : Reporter}

/-- A plaintext has the length of its chunk. -/
theorem quiet_decryptStored {ok : OperationEvent → Prop} {R : Reader Key} {opened : OpenedFile}
    {e : Entry} {k : UInt64} :
    Yields (quietly ok q) (fun data : Bytes => data.length = e.chunkLen k)
      (perform (decryptStored R opened e k)) := by
  refine kept_perform (fun i w fs => ?_) fun i w data w' hop => ?_
  · exact .of_memory (remote_decryptStored i w).1 (remote_decryptStored i w).2
  · unfold decryptStored at hop
    split at hop
    · have hfail := (Prod.mk.inj hop).1
      rw [bind_eq_ok] at hfail
      obtain ⟨-, -, herr⟩ := hfail
      cases herr
    · exact (ReadOnlyFs.length_of_decryptChunk (Prod.mk.inj hop).1).2

section Verify

variable {R : Reader Key} {opened : OpenedFile} {d : δ}

/-- A chunk task pays the length of its chunk. -/
theorem settles_verifyChunk (hΦ : AboutChunks Φ) (hr : reporter.Shows q p) (e : Entry)
    (k : UInt64) :
    Settles (Metering p q total Φ) (fun _ => True) ((e.chunkLen k, 1), 0)
      (verifyChunk R opened ⟨q, total, reporter⟩ e k) fun _ g' => g' = ((0, 0), 0) := by
  unfold verifyChunk
  refine (settles_silent hΦ quiet_check).bind fun _ g hg => ?_
  rw [hg.2]
  refine (settles_silent hΦ (kept_context quiet_decryptStored)).bind fun data g hg => ?_
  rw [hg.2]
  refine (settles_silent hΦ (yields_quiet_require _)).bind fun amount g hg => ?_
  rw [hg.2, ← verifyAmount_toNat hg.1]
  exact settles_advance (n := 0) hΦ hr fun frame _ => .inl (by omega)

/-- **The verification pays the whole total.** -/
theorem settles_verifyAll (hΦ : AboutChunks Φ) (hv : Validated R opened)
    (htotal : verifyTotal R.order opened.index = .ok total) (hr : reporter.Shows .verify p)
    {n : Nat × Nat} (hn : n = (total.toNat + 1, 0) ∨
      n.1 = total.toNat ∧ reporter (.phaseStarted .verify) = none) :
    Settles (Metering p .verify total Φ) (· = 0) (n, d) (verifyAllWithControl R opened reporter)
      fun _ g' => g' = ((0, 0), d) := by
  have hmem : ∀ e ∈ verifyFiles R.order opened.index, e.Chunked := by
    intro e he
    have hfile := List.mem_filter.mp ((List.mergeSort_perm _ _).mem_iff.mp he)
    refine hv.chunked e ((R.order.perm _).mem_iff.mp hfile.1) ?_
    exact of_decide_eq_true hfile.2
  have hsum : ((verifyFiles R.order opened.index).map fun e => e.size.toNat).sum =
      total.toNat := by
    have hchecked := checkedSum_eq_some_iff.mp (ofOption_eq_ok.mp htotal)
    rw [hchecked, List.map_map]
    rfl
  unfold verifyAllWithControl
  refine (settles_silent hΦ (yields_quiet_require _)).bind fun total' g hg => ?_
  obtain rfl : total = total' := Except.ok.inj (htotal.symm.trans hg.1)
  rw [hg.2]
  refine (settles_newTracker (k := 0) hΦ hr hn).bind fun tracker g hg => ?_
  obtain ⟨rfl, rfl⟩ := hg
  refine settles_parts hsum ?_ fun e he => ?_
  · rintro frame rfl
    exact .inr (le_refl _)
  -- the tasks of one file pay its size
  · refine settles_parts (sum_chunkLen (hmem e he)) (fun frame _ => .inl (by omega)) fun k _ => ?_
    exact settles_verifyChunk hΦ hr e k

end Verify

/-! ## The operation -/

namespace V2

/-- The part of `verify_inner` and `extract_v2_inner` that opens the container. -/
def openReading (R : Reader Key) (path : Path) (password : String) : WorldProg OpenedFile := do
  Prog.check
  Prog.event (.phaseStarted .keyDerivation)
  let opened ← openStored R path password
  Prog.check
  return opened

variable {R : Reader Key} {path : Path} {password : String}

theorem yields_quiet_openReading (hp : p ≠ .keyDerivation) :
    Yields (quietly (·.Outside p) q) (Validated R) (openReading R path password) := by
  unfold openReading
  refine .bind quiet_check fun _ _ => .bind (quiet_event fun h => ?_) fun _ _ => ?_
  · exact hp (Option.some.inj h).symm
  · refine .bind (yields_quiet_openStored R path password) fun opened hv => ?_
    exact .bind quiet_check fun _ _ => .pure hv

/-- **The progress of a verification.** -/
theorem measured_verify {fs : Fs} {nextOther : Nat} {ls : List (Label WorldInput EnvAction)}
    {t : Task World WorldInput Error} {w : World}
    (hrun : run (interleave World.env)
      ((verifyStored R path password).task, World.start fs nextOther) ls = some (t, w)) :
    (OperationPhase.verify.reports w.control.events = [] ∧ t.isDone = false) ∨
    ∃ ls₁ ls₂ opened u, ls = ls₁ ++ ls₂ ∧
      (openReading R path password).Executes World.env (World.start fs nextOther) ls₁
        (.ok opened) u ∧
      Measured .verify (totalSize opened.index.entries.values) t.isDone w.control.events := by
  have hquiet : Yields (quietly (·.Outside .verify) .verify) (Validated R)
      (openReading R path password) := yields_quiet_openReading nofun
  have hstart := Unbegun.start (p := .verify) (q := .verify) fs nextOther
  have hsplit := hquiet.passed
    (f := fun opened => installPool (verifyAllWithControl R opened .frontend)) hrun
  rcases hsplit with ⟨ls₁, ls₂, opened, u, hls, hexec, hrest⟩ | ⟨hdone, t', hstill⟩
  · right
    refine ⟨ls₁, ls₂, opened, u, hls, hexec, ?_⟩
    have hvalid := hquiet.of_executes hexec
    obtain ⟨total, htotal, -, hsize⟩ := hvalid.totals
    have hunbegun := hstart.executes hquiet hexec
    -- nothing is held besides the share
    let Φ : Nat → World → Prop := fun _ _ => True
    have hΦ : AboutChunks Φ := fun _ _ _ _ _ => trivial
    have hsettles : Settles (Metering .verify .verify total Φ) (· = 0) ((total.toNat + 1, 0), 0)
        (installPool (verifyAllWithControl R opened .frontend)) fun _ g => g = ((0, 0), 0) := by
      refine (settles_silent hΦ (kept_context quiet_reading)).bind fun _ g hg => ?_
      rw [hg.2]
      exact settles_verifyAll hΦ hvalid htotal (Reporter.frontend_shows .verify) (.inl rfl)
    rw [← hsize]
    exact measured_of_settles hΦ hsettles.task (hunbegun.metering trivial) hrest
  · exact .inl ⟨(hstart.run hquiet hstill).1, hdone⟩

end V2

end CipherFS
