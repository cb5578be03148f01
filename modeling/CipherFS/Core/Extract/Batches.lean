import CipherFS.Core.Extract.Operations

/-!
# The chunks of a file, batch by batch

The batches of a file follow each other without a gap. Within a batch the
decryptions run in parallel, each with its own cell, and the writes take the
cells in order; so after each batch the file holds the chunks up to there,
whatever the order in which they were decrypted.
-/

namespace CipherFS.Extract

open WorldProg Prog V2

/-! ## Batches -/

theorem flatMap_ranges (n b : Nat) : ∀ m : Nat,
    (List.range m).flatMap (fun j => List.range' (j * b) (min b (n - j * b))) =
      List.range (min n (m * b))
  | 0 => by rw [Nat.zero_mul, Nat.min_zero]; rfl
  | m + 1 => by
      rw [List.range_succ, List.flatMap_append, flatMap_ranges n b m, List.flatMap_singleton]
      rcases Nat.le_total (m * b) n with hle | hle
      · have hsum : min n ((m + 1) * b) = m * b + min b (n - m * b) := by
          rw [Nat.succ_mul]
          omega
        rw [Nat.min_eq_right hle, List.range_eq_range', List.range_eq_range', hsum,
          ← List.range'_append_1, Nat.zero_add]
      · have hend : min n ((m + 1) * b) = min n (m * b) := by
          rw [Nat.succ_mul]
          omega
        rw [Nat.sub_eq_zero_of_le hle, Nat.min_zero, hend]
        exact List.append_nil _

/-- **The batches are the chunks in order**; the last one may be shorter. -/
theorem flatten_batches {batchSize : Nat} (h : 1 ≤ batchSize) (n : Nat) :
    (batches n batchSize).flatten = (List.range n).map UInt64.ofNat := by
  have hcover : n ≤ (n + batchSize - 1) / batchSize * batchSize := by
    have := Nat.lt_div_mul_add (a := n + batchSize - 1) h
    omega
  rw [batches, ← List.flatMap_def, ← List.map_flatMap, flatMap_ranges, Nat.min_eq_left hcover]

theorem nodup_batch {n batchSize : Nat} (hn : n < 2 ^ 64) {batch : List UInt64}
    (h : batch ∈ batches n batchSize) : batch.Nodup := by
  obtain ⟨j, -, rfl⟩ := List.mem_map.mp h
  refine List.Nodup.map_on (fun a ha b hb hab => ?_) List.nodup_range'
  have hbound : ∀ x ∈ List.range' (j * batchSize) (min batchSize (n - j * batchSize)),
      x < 2 ^ 64 := by
    intro x hx
    have := List.mem_range'_1.mp hx
    omega
  have heq := congrArg UInt64.toNat hab
  rwa [UInt64.toNat_ofNat_of_lt' (hbound a ha), UInt64.toNat_ofNat_of_lt' (hbound b hb)] at heq

example : batches 5 2 = [[0, 1], [2, 3], [4]] := by decide

/-! ## Beside the other decryptions -/

variable {Key : Type} {R : Reader Key} {opened : OpenedFile} {container next : Nat}
  {base : Path} {files : List (Entry × PendingFile)} {S : Path → FsNode → Prop} {e : Entry}
  {file : Nat} {k : UInt64} {ks done : List UInt64} {w w' : World} {P : World → Prop}
  {faults : String → Prop} {A : WorldInput → Prop} {E : Error → World → Prop}

/-- What a decryption changes: cells of `K`, and the list of errors. -/
def Cells (K : UInt64 → Prop) (w w' : World) : Prop :=
  ∃ chunks failures, w' = { w with chunks := chunks, failures := failures } ∧
    ∀ k, ¬K k → chunks k = w.chunks k

theorem Cells.frame {K : UInt64 → Prop} (h : Cells K w w') : Frame base w w' := by
  obtain ⟨chunks, failures, rfl, -⟩ := h
  exact { Frame.refl w with }

theorem Cells.mono {K K' : UInt64 → Prop} (h : Cells K w w') (hK : ∀ k, K k → K' k) :
    Cells K' w w' := by
  obtain ⟨chunks, failures, heq, hkeep⟩ := h
  exact ⟨chunks, failures, heq, fun k hk => hkeep k fun hKk => hk (hK k hKk)⟩

/-- Everybody else, and decryptions that have the cells of `K`. -/
def beside (K : UInt64 → Prop) : Rely World :=
  .closure fun w w' => (∃ a, w.env a = some w') ∨ Cells K w w'

theorem stable_beside {K : UInt64 → Prop} (h : ∀ w w', Interferes w w' → P w → P w')
    (h' : ∀ w w', Cells K w w' → P w → P w') : (beside K).Stable P := by
  refine Rely.stable_closure fun w w' hstep hw => ?_
  rcases hstep with ⟨a, ha⟩ | hcells
  · exact h w w' (World.interferes_of_env ha) hw
  · exact h' w w' hcells hw

/-- The guarantees of a batch: every decryption has the cell of its chunk. -/
def oneCellEach {ks : List UInt64} (h : ks.Nodup) :
    Split World.sharing (fun _ _ => True) ks.length where
  rely i := beside fun k => k ≠ ks.get i
  guarantee i := Cells fun k => k = ks.get i
  inherit _ _ _ hrel := Relation.ReflTransGen.mono (fun _ _ ha => .inl ha) _ _ hrel
  others i j w w' hij hcells := by
    refine .single (.inr (hcells.mono fun k hk heq => hij ?_))
    exact List.nodup_iff_injective_get.mp h (heq.symm.trans hk)
  within _ _ _ _ := trivial

/-- An extraction ends early because it was cancelled, because the system has
failed a call, or because a chunk does not decrypt. -/
def Interrupted (R : Reader Key) (opened : OpenedFile) (container : Nat) (faults : String → Prop)
    (err : Error) (w : World) : Prop :=
  Stopped faults err ∨ ∃ e ∈ opened.index.entries.values, ∃ k ∈ e.chunkIndices, ∃ err',
    Decrypts R opened container e k (.error err') w ∧
      err = ⟨err'.cause, s!"Entry {e.id} chunk {k} failed authentication" :: err'.contexts⟩

theorem Interrupted.grow {err : Error} (h : Interrupted R opened container faults err w)
    (hw : ∀ n, w.versions n ⊆ w'.versions n) :
    Interrupted R opened container faults err w' := by
  rcases h with h | ⟨e, he, k, hk, err', hd, heq⟩
  · exact .inl h
  · exact .inr ⟨e, he, k, hk, err', hd.grow hw, heq⟩

/-- The inputs only fail calls with the errors of `faults`. -/
abbrev Faulty (faults : String → Prop) (i : WorldInput) : Prop :=
  ∀ text, i.fault = some text → faults text

theorem tolerates_interrupted (hA : ∀ i, A i → Faulty faults i) :
    Tolerates faults A (Interrupted R opened container faults) :=
  ⟨hA, fun _ _ h => .inl h⟩

/-- The container is read as it is now, which is one of the contents it has had. -/
theorem decryptStored_cases (hfile : opened.file = .file (.other container)) {i : WorldInput}
    (hi : Faulty faults i) (hw : Guarded base w) :
    ∃ r, decryptStored R opened e k i w = (r, w) ∧
      (Decrypts R opened container e k r w ∨ ∃ err, r = .error err ∧ Stopped faults err) := by
  have hread : Decrypts R opened container e k
      (decryptChunk R.crypto (opened.inFs w.fs) e k) w := by
    refine ⟨_, hw.current container, ?_⟩
    rw [OpenedFile.inFs, hfile]
    rfl
  cases hfault : i.fault with
  | none =>
      refine ⟨_, ?_, .inl hread⟩
      simp only [decryptStored, hfault]
  | some text =>
      cases hspan : chunkSpan opened.dataStart e k with
      | ok span =>
          refine ⟨Result.ioError text, ?_, .inr ⟨_, rfl, .inr ⟨text, hi text hfault, rfl⟩⟩⟩
          simp only [decryptStored, hfault, hspan]
          rfl
      | error err =>
          -- the request itself is wrong, and no content makes it right
          have herr : decryptChunk R.crypto (opened.inFs w.fs) e k = .error err := by
            rw [decryptChunk, show (opened.inFs w.fs).dataStart = opened.dataStart from rfl, hspan]
            rfl
          rw [herr] at hread
          refine ⟨.error err, ?_, .inl hread⟩
          simp only [decryptStored, hfault, hspan]
          rfl

/-- One decryption leaves the plaintext in its cell. -/
theorem triple_decryptInto (hfile : opened.file = .file (.other container))
    (hA : ∀ i, A i → Faulty faults i) (he : e ∈ opened.index.entries.values)
    (hk : k ∈ e.chunkIndices) :
    Triple A (beside fun k' => k' ≠ k) (Cells fun k' => k' = k) (Guarded base)
      (decryptInto R opened e k)
      (fun _ w => Decrypts R opened container e k (.ok (w.chunks k)) w)
      (Interrupted R opened container faults) := by
  have hguarded : (beside fun k' => k' ≠ k).Stable (Guarded base) :=
    stable_beside (fun w w' hi hw => hw.frame (.of_interferes hi hw)) fun w w' hc hw =>
      hw.frame hc.frame
  have hplain : ∀ data, (beside fun k' => k' ≠ k).Stable
      (Decrypts R opened container e k (.ok data)) := fun data =>
    stable_beside (fun w w' hi hw => hw.grow hi.history) fun w w' hc hw =>
      hw.grow (hc.frame : Frame base w w').history
  unfold decryptInto
  refine .bind (Q := fun _ => Guarded base)
    (.call hguarded fun i w _ hw => ⟨⟨w.chunks, w.failures, rfl, fun _ _ => rfl⟩, ?_⟩) fun _ => ?_
  · dsimp only
    split
    · exact .inl (.inl rfl)
    · exact hw
  refine .bind (Q := fun data => Decrypts R opened container e k (.ok data))
    (.mapError (.call hguarded fun i w hi hw => ?_)) fun data =>
      .modify (hplain data) (fun w hw => ?_) fun w hw => ?_
  · obtain ⟨r, heq, hr⟩ := decryptStored_cases (R := R) (e := e) (k := k) hfile (hA i hi) hw
    rw [heq]
    cases r with
    | ok data =>
        refine ⟨⟨w.chunks, w.failures, rfl, fun _ _ => rfl⟩, ?_⟩
        exact hr.resolve_right fun ⟨_, h, _⟩ => nomatch h
    | error err =>
        refine ⟨⟨w.chunks, _, rfl, fun _ _ => rfl⟩, ?_⟩
        rcases hr with hd | ⟨err', herr, hstop⟩
        · exact .inr ⟨e, he, k, hk, err, hd, rfl⟩
        · obtain rfl := Except.error.inj herr
          exact .inl hstop
  · exact ⟨_, w.failures, rfl, fun _ hne => Function.update_of_ne hne ..⟩
  · show Decrypts R opened container e k (.ok (Function.update w.chunks k data k)) _
    rw [Function.update_self]
    exact hw

/-- The decryptions of a batch fill its cells, in whatever order they run. -/
theorem holds_decryptions (hfile : opened.file = .file (.other container))
    (hA : ∀ i, A i → Faulty faults i) (he : e ∈ opened.index.entries.values)
    (hks : ∀ k ∈ ks, k ∈ e.chunkIndices) (hnodup : ks.Nodup) :
    Holds A (Opened R opened container base files S file e done)
      (Prog.parForEach ks (decryptInto R opened e))
      (fun _ w => Opened R opened container base files S file e done w ∧
        Loaded R opened container e ks w)
      (Interrupted R opened container faults) := by
  have hkept : Kept World.sharing (oneCellEach hnodup).any
      (Opened R opened container base files S file e done) :=
    ⟨Opened.stable, fun w w' hw ⟨_, hc⟩ => hw.frame hc.frame⟩
  have hchild : ∀ i : Fin ks.length, Triple A ((oneCellEach hnodup).rely i)
      ((oneCellEach hnodup).guarantee i) (Guarded base) (decryptInto R opened e (ks.get i))
      (fun _ w => Decrypts R opened container e (ks.get i) (.ok (w.chunks (ks.get i))) w)
      (Interrupted R opened container faults) := fun i =>
    triple_decryptInto hfile hA he (hks _ (List.get_mem ks i))
  refine .parForEach (oneCellEach hnodup) (fun _ => Guarded base) hkept (fun w hw => hw)
    (fun i w hw => hw.building.guarded) hchild ?_ ?_ ?_ fun i err w _ herr => herr
  · intro i
    refine stable_beside (fun w w' hi hw => ?_) fun w w' hc hw => ?_
    · rw [hi.chunks]
      exact hw.grow hi.history
    · have hcell : w'.chunks (ks.get i) = w.chunks (ks.get i) := by
        obtain ⟨chunks, failures, rfl, hkeep⟩ := hc
        exact hkeep _ fun hne => hne rfl
      rw [hcell]
      exact hw.grow (hc.frame : Frame base w w').history
  · intro i err
    exact stable_beside (fun w w' hi hw => hw.grow hi.history) fun w w' hc hw =>
      hw.grow (hc.frame : Frame base w w').history
  · intro w hw hall
    refine ⟨hw, fun k hk => ?_⟩
    obtain ⟨i, rfl⟩ := List.mem_iff_get.mp hk
    exact hall i

/-! ## Writing -/

/-- More content in the file that is being written. -/
theorem Opened.append {i : WorldInput} {data : Bytes}
    (h : Opened R opened container base files S file e done w)
    (hold : ∀ f ∈ files, f.2.file < file) (hdata : Decrypts R opened container e k (.ok data) w) :
    Opened R opened container base files S file e (done ++ [k])
      (Op.overwrite file (· ++ data) i w) := by
  obtain ⟨parts, hparts, hcontent⟩ := h.written
  refine ⟨?_, parts ++ [data], List.rel_append hparts (.cons hdata .nil), ?_⟩
  · refine
      { guarded := { h.building.guarded with current := fun n => ?_ }
        objects := h.building.objects
        filled := fun f hf => (h.building.filled f hf).grow (inodes_own (Nat.ne_of_lt (hold f hf)))
          fun _ => List.Subset.refl _
        issued := h.building.issued }
    show Function.update w.fs.inodes (.own file)
      ⟨(w.fs.inodes (.own file)).content ++ data, i.time⟩ (.other n) ∈ w.versions n
    rw [inodes_other]
    exact h.building.guarded.current n
  · have hnew : (Op.overwrite file (· ++ data) i w).fs.inodes (.own file) =
        ⟨(w.fs.inodes (.own file)).content ++ data, i.time⟩ := Function.update_self ..
    rw [hnew, hcontent, List.flatten_append]
    simp

theorem holds_writeChunk {progress : ProgressTracker} (ht : Tolerates faults A E) (hk : k ∈ ks)
    (hold : ∀ f ∈ files, f.2.file < file) :
    Holds A (fun w => Opened R opened container base files S file e done w ∧
        Loaded R opened container e ks w)
      (writeChunk progress file k)
      (fun _ w => Opened R opened container base files S file e (done ++ [k]) w ∧
        Loaded R opened container e ks w) E := by
  have hlasting : ∀ done, Lasting base fun w =>
      Opened R opened container base files S file e done w ∧ Loaded R opened container e ks w :=
    fun done => Opened.lasting.and Loaded.lasting
  have hguarded : ∀ done w, (Opened R opened container base files S file e done w ∧
      Loaded R opened container e ks w) → Guarded base w :=
    fun done w hw => hw.1.building.guarded
  unfold writeChunk
  refine .bind (Q := fun data w => Decrypts R opened container e k (.ok data) w ∧
      Opened R opened container base files S file e done w ∧ Loaded R opened container e ks w)
    (.read ((hlasting done).stable (hguarded done)) (fun _ _ => trivial)
      fun w hw => ⟨hw.2 k hk, hw⟩) fun data => ?_
  refine .bind (Q := fun _ w => Opened R opened container base files S file e (done ++ [k]) w ∧
      Loaded R opened container e ks w)
    (.call ((Decrypts.lasting.and (hlasting done)).stable fun w hw => hguarded done w hw.2)
      fun i w hi hw => ⟨trivial, ?_⟩) fun _ =>
        holds_onControl (hlasting _) (hguarded _)
  cases hfault : i.fault with
  | none =>
      simp only [Op.writeAll, hfault]
      exact ⟨hw.2.1.append hold hw.1, fun k hk => (hw.2.2 k hk).grow fun _ => List.Subset.refl _⟩
  | some text =>
      simp only [Op.writeAll, hfault, Post, Result.ioError]
      exact ht.errors _ _ (.inr ⟨text, ht.inputs i hi text hfault, rfl⟩)

/-- One batch of a file. -/
theorem holds_extractBatch {progress : ProgressTracker}
    (hfile : opened.file = .file (.other container)) (hA : ∀ i, A i → Faulty faults i)
    (he : e ∈ opened.index.entries.values) (hks : ∀ k ∈ ks, k ∈ e.chunkIndices)
    (hnodup : ks.Nodup) (hold : ∀ f ∈ files, f.2.file < file) :
    Holds A (Opened R opened container base files S file e done)
      (extractBatch R opened progress e file ks)
      (fun _ => Opened R opened container base files S file e (done ++ ks))
      (Interrupted R opened container faults) := by
  have ht : Tolerates faults A (Interrupted R opened container faults) :=
    tolerates_interrupted hA
  unfold extractBatch
  refine (holds_check ht Opened.stable).bind fun _ => ?_
  refine (holds_decryptions hfile hA he hks hnodup).bind fun _ => ?_
  have hwrites : Holds A (fun w => Opened R opened container base files S file e (done ++ []) w ∧
        Loaded R opened container e ks w) (ks.forM (writeChunk progress file))
      (fun _ w => Opened R opened container base files S file e (done ++ ks) w ∧
        Loaded R opened container e ks w) (Interrupted R opened container faults) := by
    refine .forM (I := fun pre w => Opened R opened container base files S file e (done ++ pre) w ∧
      Loaded R opened container e ks w) fun pre k post hsplit => ?_
    rw [← List.append_assoc]
    refine holds_writeChunk ht ?_ hold
    rw [hsplit]
    exact List.mem_append_right pre List.mem_cons_self
  rw [List.append_nil] at hwrites
  exact hwrites.conseq (fun _ hw => hw) (fun _ w hw => hw.1) fun _ _ herr => herr

/-- All the batches of a file leave its chunks in order. -/
theorem holds_batches {progress : ProgressTracker} {batchSize : Nat} (hbatch : 1 ≤ batchSize)
    (hfile : opened.file = .file (.other container)) (hA : ∀ i, A i → Faulty faults i)
    (he : e ∈ opened.index.entries.values) (hold : ∀ f ∈ files, f.2.file < file) :
    Holds A (Opened R opened container base files S file e [])
      ((batches e.chunkCount.toNat batchSize).forM (extractBatch R opened progress e file))
      (fun _ => Opened R opened container base files S file e e.chunkIndices)
      (Interrupted R opened container faults) := by
  have hflat : (batches e.chunkCount.toNat batchSize).flatten = e.chunkIndices :=
    flatten_batches hbatch _
  rw [← hflat]
  refine .forM (I := fun pre => Opened R opened container base files S file e pre.flatten)
    fun pre batch post hsplit => ?_
  have hmem : batch ∈ batches e.chunkCount.toNat batchSize := by
    rw [hsplit]
    exact List.mem_append_right pre List.mem_cons_self
  have hindices : ∀ k ∈ batch, k ∈ e.chunkIndices := by
    intro k hk
    rw [← hflat]
    exact List.mem_flatten.mpr ⟨batch, hmem, hk⟩
  have hnodup : batch.Nodup := nodup_batch e.chunkCount.toNat_lt hmem
  rw [List.flatten_append, List.flatten_singleton]
  exact holds_extractBatch hfile hA he hindices hnodup hold

/-- The `File` case: a new temporary file that holds the chunks of the entry in order. -/
theorem holds_extractFile {root : SafeRoot} {progress : ProgressTracker} {batchSize : Nat}
    {parent : Path} {fresh : ByteArr 8 → Prop} (hbatch : 1 ≤ batchSize)
    (hfile : opened.file = .file (.other container)) (hA : ∀ i, A i → Faulty faults i)
    (hfresh : ∀ i, A i → fresh (fillBytes i 0 8)) (he : e ∈ opened.index.entries.values)
    (hname : validateName .unix e.name = .ok ())
    (hparent : root.directories.lookup e.parentId = some parent) (hdir : S parent .directory)
    (hfree : ∀ node, ¬S (parent ++ [.utf8 e.name]) node)
    (htemp : ∀ r, fresh r → ∀ node, ¬S (parent ++ [SafeRoot.tempName e.id r]) node)
    (hold : ∀ f ∈ files, f.2.file < next) :
    Holds A (Building R opened container root.staging files S next)
      (extractFile R .unix opened progress batchSize root e)
      (fun pending w => ∃ r, (fresh r ∧ pending =
          ⟨root.staging ++ parent, SafeRoot.tempName e.id r, .utf8 e.name, next⟩) ∧
        Opened R opened container root.staging files (fun q node => S q node ∨
          q = parent ++ [SafeRoot.tempName e.id r] ∧ node = .file (.own next)) next e
          e.chunkIndices w)
      (Interrupted R opened container faults) := by
  have ht : Tolerates faults A (Interrupted R opened container faults) :=
    tolerates_interrupted hA
  unfold extractFile
  refine (holds_beginFile ht hfresh hname hparent hdir hfree htemp hold).bind fun pending => ?_
  refine .exists fun r => .assume fun ⟨hr, hpending⟩ => ?_
  subst hpending
  refine (holds_batches hbatch hfile hA he hold).bind fun _ => ?_
  unfold PendingFile.finishWriting
  refine ((holds_sync ht Opened.stable).bind fun _ => holds_sync ht Opened.stable).bind fun _ => ?_
  exact .pure fun w hw => ⟨r, ⟨hr, rfl⟩, hw⟩

end CipherFS.Extract
