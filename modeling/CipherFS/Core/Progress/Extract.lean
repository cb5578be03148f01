import CipherFS.Core.Extract.Batches
import CipherFS.Core.Progress.Verify

/-!
# The progress of an extraction

A chunk is counted when it is written, by the length of what a decryption has left
in its cell. Besides its share of the phase a decryption therefore holds its cell,
empty or with the length of the plaintext; no two cells of a batch are the same.
-/

namespace CipherFS.Extract

open WorldProg Prog V2 Result

variable {Key : Type} {R : Reader Key} {build : Build} {opened : OpenedFile} {total : UInt64} {e : Entry}
  {batch : List UInt64} {batchSize n : Nat} {req : ExtractRequest}

/-! ## Cells -/

/-- The cell of a chunk, and the length of the plaintext in it. -/
abbrev Cell : Type := UInt64 × Option Nat

/-- The cells that are held are different, and hold what they are said to hold. -/
def Kept (cells : Multiset Cell) (w : World) : Prop :=
  (cells.map Prod.fst).Nodup ∧ ∀ k len, (k, some len) ∈ cells → (w.chunks k).length = len

theorem aboutChunks_kept : AboutChunks Kept := by
  rintro cells w w' hchunks ⟨hnodup, hheld⟩
  refine ⟨hnodup, fun k len hk => ?_⟩
  rw [hchunks]
  exact hheld k len hk

/-- A cell that is filled. The other cells stay. -/
theorem Kept.fill {cells : Multiset Cell} {w : World} {k : UInt64} {data : Bytes}
    (h : Kept ({(k, none)} + cells) w) :
    Kept ({(k, some data.length)} + cells) { w with chunks := Function.update w.chunks k data } := by
  obtain ⟨hnodup, hheld⟩ := h
  rw [Multiset.map_add, Multiset.map_singleton] at hnodup
  refine ⟨?_, fun k' len hk => ?_⟩
  · rw [Multiset.map_add, Multiset.map_singleton]
    exact hnodup
  · rcases Multiset.mem_add.mp hk with hk | hk
    · obtain ⟨rfl, hlen⟩ := Prod.mk.inj (Multiset.mem_singleton.mp hk)
      dsimp only
      rw [Option.some.inj hlen, Function.update_self]
    · have hmem : k' ∈ cells.map Prod.fst := Multiset.mem_map_of_mem Prod.fst hk
      have hne : k' ≠ k := by
        rintro rfl
        rw [Multiset.singleton_add, Multiset.nodup_cons] at hnodup
        exact hnodup.1 hmem
      dsimp only
      rw [Function.update_of_ne hne]
      exact hheld k' len (Multiset.mem_add.mpr (.inr hk))

/-- The cells of a batch. -/
def cellsOf (f : UInt64 → Option Nat) (xs : List UInt64) : Multiset Cell :=
  Multiset.ofList (xs.map fun k => (k, f k))

theorem mem_cellsOf {f : UInt64 → Option Nat} {xs : List UInt64} {cell : Cell} :
    cell ∈ cellsOf f xs ↔ ∃ k ∈ xs, (k, f k) = cell :=
  Multiset.mem_coe.trans List.mem_map

/-- The cells of a batch are different, and none of them is said to be filled. -/
theorem kept_cellsOf (hbatch : batch.Nodup) (w : World) : Kept (cellsOf (fun _ => none) batch) w := by
  refine ⟨?_, fun k len hk => ?_⟩
  · rw [cellsOf, Multiset.map_coe, List.map_map, Multiset.coe_nodup]
    have hkeys : batch.map (Prod.fst ∘ fun k => ((k, none) : Cell)) = batch := List.map_id batch
    rwa [hkeys]
  · obtain ⟨_, -, heq⟩ := mem_cellsOf.mp hk
    cases (Prod.mk.inj heq).2

/-- The shares of cells that owe nothing. -/
theorem sum_cells (xs : List UInt64) (f : UInt64 → Option Nat) :
    (xs.map fun k => (((0, 0), {(k, f k)}) : (Nat × Nat) × Multiset Cell)).sum =
      ((0, 0), cellsOf f xs) := by
  induction xs with
  | nil => rfl
  | cons k rest ih =>
      rw [List.map_cons, List.sum_cons, ih]
      rfl

/-! ## A batch -/

/-- What is left of a loop before and after one iteration. -/
theorem drop_split {α : Type} {xs pre post : List α} {x : α} (h : xs = pre ++ x :: post) :
    xs.drop pre.length = x :: post ∧ xs.drop (pre ++ [x]).length = post := by
  have hnext : xs = (pre ++ [x]) ++ post := by rw [h, List.append_assoc, List.singleton_append]
  constructor
  · rw [h]
    exact List.drop_left
  · rw [hnext]
    exact List.drop_left

/-- All shares of an extraction. -/
abbrev Extracting (total : UInt64) : (Nat × Nat) × Multiset Cell → World → Prop :=
  Metering .extract .extract total Kept

/-- A decryption fills its cell. -/
theorem settles_decryptInto (e : Entry) (k : UInt64) :
    Settles (Extracting total) (fun _ => True) ((0, 0), {(k, none)}) (decryptInto R opened e k)
      fun _ g' => g' = ((0, 0), {(k, some (e.chunkLen k))}) := by
  unfold decryptInto
  refine (settles_silent aboutChunks_kept quiet_check).bind fun _ g hg => ?_
  rw [hg.2]
  refine (settles_silent aboutChunks_kept (kept_context quiet_decryptStored)).bind fun data g hg => ?_
  rw [hg.2, ← hg.1]
  refine .call fun i w frame _ ⟨hmeter, hheld⟩ => ?_
  exact ⟨((0, 0), {(k, some data.length)}), ⟨hmeter, Kept.fill hheld⟩, fun _ _ => rfl⟩

/-- A write pays the length of its chunk. -/
theorem settles_writeChunk {cells : Multiset Cell} {k : UInt64} (file : Nat)
    (hk : (k, some (e.chunkLen k)) ∈ cells) :
    Settles (Extracting total) (· = 0) ((e.chunkLen k + n, 1), cells)
      (writeChunk ⟨.extract, total, .frontend⟩ file k) fun _ g' => g' = ((n, 1), cells) := by
  unfold writeChunk
  refine Settles.bind (V := fun data g' => data.length = e.chunkLen k ∧
    g' = ((e.chunkLen k + n, 1), cells)) (.call ?_) fun data g hg => ?_
  · rintro i w frame rfl hw
    refine ⟨_, hw, fun data hdata => ⟨?_, rfl⟩⟩
    obtain rfl := Except.ok.inj hdata
    refine hw.2.2 k _ ?_
    rw [add_zero]
    exact hk
  obtain ⟨hlen, rfl⟩ := hg
  refine (settles_silent aboutChunks_kept (quiet_perform (remote_writeAll _ _))).bind
    fun _ g hg => ?_
  have hamount : (UInt64.ofNat data.length).toNat = e.chunkLen k := by
    have hle : e.chunkLen k ≤ 4194304 := Nat.min_le_left _ _
    have hlt : data.length < 2 ^ 64 := by omega
    rw [UInt64.toNat_ofNat_of_lt' hlt, hlen]
  rw [hg.2, ← hamount]
  exact settles_advance aboutChunks_kept (Reporter.frontend_shows .extract) fun frame _ =>
    .inl (by omega)

/-- **A batch pays the lengths of its chunks.** -/
theorem settles_extractBatch (file : Nat) (hbatch : batch.Nodup) :
    Settles (Extracting total) (· = 0) (((batch.map e.chunkLen).sum + n, 1), 0)
      (extractBatch R opened ⟨.extract, total, .frontend⟩ e file batch)
      fun _ g' => g' = ((n, 1), 0) := by
  let filled : Multiset Cell := cellsOf (fun k => some (e.chunkLen k)) batch
  unfold extractBatch
  refine (settles_silent aboutChunks_kept quiet_check).bind fun _ g hg => ?_
  rw [hg.2]
  refine Settles.bind (V := fun _ g' => g' = (((batch.map e.chunkLen).sum + n, 1), filled)) ?_
    fun _ g hg => ?_
  · have hpar : Settles (Extracting total) (· = 0) (((batch.map e.chunkLen).sum + n, 1), 0)
        (Prog.parForEach batch (decryptInto R opened e)) fun _ g' =>
          g' = (batch.map fun k => ((0, 0), {(k, some (e.chunkLen k))})).sum +
            (((batch.map e.chunkLen).sum + n, 1), 0) := by
      refine .parForEach (d := fun k => ((0, 0), {(k, none)})) ?_ fun k _ => settles_decryptInto e k
      rw [sum_cells]
      rintro frame w rfl ⟨hmeter, -⟩
      refine ⟨by simpa using hmeter, ?_⟩
      simpa using kept_cellsOf hbatch w
    refine hpar.conseq fun _ g hg => ?_
    rw [hg, sum_cells]
    simp [filled]
  · rw [hg]
    have hloop : Settles (Extracting total) (· = 0) (((batch.map e.chunkLen).sum + n, 1), filled)
        (batch.forM (writeChunk ⟨.extract, total, .frontend⟩ file)) fun _ g' =>
          g' = ((((batch.drop batch.length).map e.chunkLen).sum + n, 1), filled) := by
      refine .forM (J := fun pre g' =>
        g' = ((((batch.drop pre.length).map e.chunkLen).sum + n, 1), filled)) ?_ rfl
      rintro pre k post g hsplit rfl
      have hmem : k ∈ batch := hsplit ▸ List.mem_append_right _ List.mem_cons_self
      have hk : (k, some (e.chunkLen k)) ∈ filled := mem_cellsOf.mpr ⟨k, hmem, rfl⟩
      obtain ⟨hbefore, hafter⟩ := drop_split hsplit
      rw [hbefore, hafter, List.map_cons, List.sum_cons, Nat.add_assoc]
      exact settles_writeChunk file hk
    -- the cells are not needed any more
    refine hloop.after fun _ g' hg' => ⟨((n, 1), 0), ?_, rfl⟩
    rw [hg', List.drop_length]
    rintro frame w rfl ⟨hmeter, -⟩
    refine ⟨by simpa using hmeter, ?_⟩
    exact ⟨Multiset.nodup_zero, fun _ _ hk => absurd hk (Multiset.notMem_zero _)⟩

/-! ## The tree -/

/-- **A file pays its size.** -/
theorem settles_extractFile (hbatch : 1 ≤ batchSize) (he : e.Chunked) (root : SafeRoot) :
    Settles (Extracting total) (· = 0) ((e.size.toNat + n, 1), 0)
      (extractFile R build opened ⟨.extract, total, .frontend⟩ batchSize root e)
      fun _ g' => g' = ((n, 1), 0) := by
  have hsum : ((batches e.chunkCount.toNat batchSize).flatten.map e.chunkLen).sum =
      e.size.toNat := by
    rw [flatten_batches hbatch]
    exact sum_chunkLen he
  unfold extractFile
  refine (settles_silent aboutChunks_kept (root.quiet_beginFile _ _ _ _)).bind fun pending g hg => ?_
  rw [hg.2]
  refine Settles.bind (V := fun _ g' => g' = ((n, 1), 0)) ?_ fun _ g hg => ?_
  · have hloop : Settles (Extracting total) (· = 0) ((e.size.toNat + n, 1), 0)
        ((batches e.chunkCount.toNat batchSize).forM
          (extractBatch R opened ⟨.extract, total, .frontend⟩ e pending.file)) fun _ g' =>
          g' = (((((batches e.chunkCount.toNat batchSize).drop
            (batches e.chunkCount.toNat batchSize).length).flatten.map e.chunkLen).sum + n, 1), 0) := by
      refine .forM (J := fun pre g' => g' = (((((batches e.chunkCount.toNat batchSize).drop
        pre.length).flatten.map e.chunkLen).sum + n, 1), 0)) ?_ ?_
      · rintro pre batch post g hsplit rfl
        have hmem : batch ∈ batches e.chunkCount.toNat batchSize :=
          hsplit ▸ List.mem_append_right _ List.mem_cons_self
        obtain ⟨hbefore, hafter⟩ := drop_split hsplit
        rw [hbefore, hafter, List.flatten_cons, List.map_append, List.sum_append, Nat.add_assoc]
        exact settles_extractBatch _ (nodup_batch e.chunkCount.toNat_lt hmem)
      · rw [List.length_nil, List.drop_zero, hsum]
    refine hloop.conseq fun _ g hg => ?_
    rw [hg, List.drop_length]
    simp
  · rw [hg]
    have hfinish : Built (quietly (fun _ => False) .extract)
        (PendingFile.finishWriting >>= fun _ => (pure pending : WorldProg PendingFile)) :=
      .bind (.bind quiet_reading fun _ => quiet_reading) fun _ => .pure _
    exact (settles_silent aboutChunks_kept hfinish).conseq fun _ _ h => h.2

/-- An entry pays its size, if it is a file. -/
theorem settles_extractEntry (hbatch : 1 ≤ batchSize) (hv : Validated R opened)
    (he : e ∈ opened.index.entries.values) (state : SafeRoot × List PendingFile) :
    Settles (Extracting total) (· = 0) ((totalSize [e] + n, 1), 0)
      (extractEntry R build opened ⟨.extract, total, .frontend⟩ batchSize state e)
      fun _ g' => g' = ((n, 1), 0) := by
  unfold extractEntry
  refine (settles_silent aboutChunks_kept quiet_check).bind fun _ g hg => ?_
  rw [hg.2]
  by_cases hid : e.id = 1
  · rw [if_pos hid, totalSize_directory (hv.root e he hid), Nat.zero_add]
    exact .pure rfl
  rw [if_neg hid]
  cases hkind : e.kind with
  | directory =>
      rw [totalSize_directory hkind, Nat.zero_add]
      have hquiet : Built (quietly (fun _ => False) .extract)
          (state.1.createDirectory build.os e.id e.parentId (build.outputName e) >>= fun root =>
            (pure (root, state.2) : WorldProg (SafeRoot × List PendingFile))) :=
        .bind (state.1.quiet_createDirectory _ _ _ _) fun _ => .pure _
      exact (settles_silent aboutChunks_kept hquiet).conseq fun _ _ h => h.2
  | file =>
      rw [totalSize_file hkind]
      refine (settles_extractFile hbatch (hv.chunked e he hkind) state.1).bind fun pending g hg => ?_
      exact .pure hg

/-- **The tree pays the whole total.** -/
theorem settles_stageTree (hbatch : 1 ≤ batchSize) (hv : Validated R opened) (root : SafeRoot)
    (htotal : total.toNat = totalSize opened.index.entries.values) :
    Settles (Extracting total) (· = 0) ((total.toNat, 1), 0)
      (stageTree R build opened ⟨.extract, total, .frontend⟩ batchSize root)
      fun _ g' => g' = ((0, 1), 0) := by
  let order := extractionOrder R.order opened.index
  have horder : order.Perm opened.index.entries.values :=
    (List.mergeSort_perm _ _).trans (R.order.perm _)
  unfold stageTree
  have hevent : Built (quietly (· = .temporaryArtifact .extractionTree root.staging) .extract)
      (Prog.event (.temporaryArtifact .extractionTree root.staging)) := quiet_event rfl
  refine Settles.bind (V := fun _ g' => g' = ((total.toNat, 1), 0)) ?_ fun _ g hg => ?_
  · refine (settles_quiet aboutChunks_kept hevent ?_ (.inl ?_)).conseq fun _ _ h => h.2
    · rintro e rfl r hr
      cases hr
    · rintro e rfl r hr
      cases hr
  rw [hg]
  refine (settles_silent aboutChunks_kept (root.quiet_installRootId 1)).bind fun root' g hg => ?_
  rw [hg.2]
  refine Settles.bind (V := fun _ g' => g' = ((0, 1), 0)) ?_ fun state g hg => ?_
  · have hloop : Settles (Extracting total) (· = 0) ((total.toNat, 1), 0)
        (order.foldlM (extractEntry R build opened ⟨.extract, total, .frontend⟩ batchSize) (root', []))
        fun _ g' => g' = ((totalSize (order.drop order.length), 1), 0) := by
      refine .foldlM (J := fun pre _ g' => g' = ((totalSize (order.drop pre.length), 1), 0)) ?_ ?_
      · rintro pre e post state g hsplit rfl
        have hmem : e ∈ opened.index.entries.values :=
          horder.mem_iff.mp (hsplit ▸ List.mem_append_right _ List.mem_cons_self)
        obtain ⟨hbefore, hafter⟩ := drop_split hsplit
        have hcons : totalSize (e :: post) = totalSize [e] + totalSize post :=
          totalSize_append [e] post
        rw [hbefore, hafter, hcons]
        exact settles_extractEntry hbatch hv hmem state
      · rw [List.length_nil, List.drop_zero, totalSize_perm horder, htotal]
    refine hloop.conseq fun _ g hg => ?_
    rw [hg, List.drop_length]
    rfl
  · rw [hg]
    have hcommit : Built (quietly (fun _ => False) .extract) (do
        Prog.check
        state.2.forM PendingFile.commit
        Prog.check
        return state.1 : WorldProg SafeRoot) := by
      refine .bind quiet_check fun _ => .bind (.forM fun pending _ => ?_) fun _ => ?_
      · exact quiet_commitFile pending
      · exact .bind quiet_check fun _ => .pure _
    exact (settles_silent aboutChunks_kept hcommit).conseq fun _ _ h => h.2

/-! ## The operation -/

/-- `execute` until the container is open. -/
def openInPool (R : Reader Key) (req : ExtractRequest) : WorldProg OpenedFile := do
  (perform Op.sync).context "Unable to create worker thread pool"
  openReading R req.container req.password

/-- What `extract_v2_inner` does with the open container. -/
def extractOpened (R : Reader Key) (req : ExtractRequest) (opened : OpenedFile) :
    WorldProg Unit := do
  let build ← buildFor R opened.index
  let total ← require (extractionTotal R.order opened.index)
  let progress ← ProgressTracker.new .extract total .frontend
  let root ← SafeRoot.choose req.output req.stagingPath R.os
  let root ← root.make
  Prog.onError (do
    let root ← stageTree R build opened progress req.batchSize root
    publishTree R.order R.os root) root.dropRoot

theorem execute_eq : execute R req = openInPool R req >>= extractOpened R req := rfl

theorem quiet_publishTree {p q : OperationPhase} (hp : p ≠ .commit) (ω : IterOrder)
    (os : Platform) (root : SafeRoot) : Built (quietly (·.Outside p) q) (publishTree ω os root) := by
  unfold publishTree
  refine .bind (quiet_event fun h => hp (Option.some.inj h).symm) fun _ => ?_
  refine .bind (quiet_event (by nofun)) fun _ => .bind (root.quiet_commit ω os) fun warning => ?_
  cases warning with
  | some text => exact .bind (quiet_event (by nofun)) fun _ => quiet_event (by nofun)
  | none => exact quiet_event (by nofun)

/-- **The extraction pays the total of the index.** -/
theorem settles_extractOpened (hbatch : 1 ≤ req.batchSize) (hv : Validated R opened)
    (hextract : extractionTotal R.order opened.index = .ok total)
    (htotal : total.toNat = totalSize opened.index.entries.values) :
    Settles (Extracting total) (· = 0) ((total.toNat + 1, 0), 0) (extractOpened R req opened)
      fun _ g' => g' = ((0, 1), 0) := by
  unfold extractOpened
  have hbuild : Built (quietly (·.Outside .extract) .extract) (buildFor R opened.index) :=
    (yields_buildFor (fun _ => quiet_event (by nofun)) R opened.index).built
  refine Settles.bind (V := fun _ g' => g' = ((total.toNat + 1, 0), 0)) ?_ fun build g hg => ?_
  · refine (settles_quiet aboutChunks_kept hbuild (fun _ h => h.beside) (.inr ?_)).conseq
      fun _ _ h => h.2
    rintro frame rfl
    exact .inl rfl
  rw [hg]
  refine (settles_silent aboutChunks_kept (yields_quiet_require _)).bind fun total' g hg => ?_
  obtain rfl : total = total' := Except.ok.inj (hextract.symm.trans hg.1)
  rw [hg.2]
  refine (settles_newTracker (k := 1) aboutChunks_kept (Reporter.frontend_shows .extract)
    (.inl rfl)).bind fun progress g hg => ?_
  obtain ⟨rfl, rfl⟩ := hg
  refine (settles_silent aboutChunks_kept (quiet_choose _ _ _)).bind fun root g hg => ?_
  rw [hg.2]
  refine (settles_silent aboutChunks_kept root.quiet_make).bind fun root g hg => ?_
  rw [hg.2]
  refine .onError ?_ fun g' =>
    (settles_silent aboutChunks_kept root.quiet_dropRoot).conseq fun _ _ _ => trivial
  refine (settles_stageTree hbatch hv root htotal).bind fun root g hg => ?_
  rw [hg]
  have hpublish : Built (quietly (·.Outside .extract) .extract) (publishTree R.order R.os root) :=
    quiet_publishTree (by decide) R.order R.os root
  refine (settles_quiet aboutChunks_kept hpublish (fun _ h => h.beside) (.inr ?_)).conseq
    fun _ _ h => h.2
  rintro frame rfl
  exact .inr rfl

/-- **The progress of an extraction.** -/
theorem measured_extract {fs : Fs} {nextOther : Nat} {ls : List (Label WorldInput EnvAction)}
    {t : Task World WorldInput Error} {w : World} (hbatch : 1 ≤ req.batchSize)
    (hrun : run (interleave World.env) ((execute R req).task, World.start fs nextOther) ls =
      some (t, w)) :
    (OperationPhase.extract.reports w.control.events = [] ∧ t.isDone = false) ∨
    ∃ ls₁ ls₂ opened u, ls = ls₁ ++ ls₂ ∧
      (openInPool R req).Executes World.env (World.start fs nextOther) ls₁ (.ok opened) u ∧
      Measured .extract (totalSize opened.index.entries.values) t.isDone w.control.events := by
  have hquiet : Yields (quietly (·.Outside .extract) .extract) (Validated R) (openInPool R req) :=
    .bind (kept_context quiet_reading) fun _ _ => yields_quiet_openReading (by decide)
  have hstart : Unbegun .extract .extract (World.start fs nextOther) := .start fs nextOther
  rcases hquiet.passed hrun with ⟨ls₁, ls₂, opened, u, hls, hexec, hrest⟩ | ⟨hdone, t', hstill⟩
  · right
    refine ⟨ls₁, ls₂, opened, u, hls, hexec, ?_⟩
    have hvalid := hquiet.of_executes hexec
    obtain ⟨total, -, hextract, hsize⟩ := hvalid.totals
    rw [← hsize]
    refine measured_of_settles aboutChunks_kept
      (settles_extractOpened hbatch hvalid hextract hsize).task
      ((hstart.executes hquiet hexec).metering ?_) hrest
    exact ⟨Multiset.nodup_zero, fun _ _ hk => absurd hk (Multiset.notMem_zero _)⟩
  · exact .inl ⟨(hstart.run hquiet hstill).1, hdone⟩

end CipherFS.Extract
