import CipherFS.Core.Extract.Loop

/-!
# Extraction materialises the index

After the loop every file has its content, under a temporary name. The commits
move each to its own path, and what is below the staging directory is then the
index: every directory, every file with its chunks in order, and nothing else.
-/

namespace CipherFS.Extract

open WorldProg Prog V2

variable {Key W : Type} {R : Reader Key} {opened : OpenedFile} {container first : Nat}
  {progress : ProgressTracker} {batchSize : Nat} {root : SafeRoot} {v : ValidatedIndex}
  {base : Path} {files : List (Entry × PendingFile)} {state : SafeRoot × List PendingFile}
  {faults : String → Prop} {w w' : World}

/-! ## The commits -/

/-- The objects when the files of `done` have been moved to their places. -/
def Moved (v : ValidatedIndex) (files : List (Entry × PendingFile)) (done : List PendingFile)
    (q : Path) (node : FsNode) : Prop :=
  (∃ e ∈ v.entries.values, e.kind = .directory ∧ q = entryPath v e ∧ node = .directory) ∨
  ∃ f ∈ files, (f.2 ∈ done ∧ q = entryPath v f.1 ∨ f.2 ∉ done ∧ q = heldAt v f) ∧
    node = .file (.own f.2.file)

/-- The pending files when the loop has ended. -/
structure Complete (v : ValidatedIndex) (base : Path) (first : Nat)
    (files : List (Entry × PendingFile)) : Prop where
  entries : (files.map Prod.fst).Perm (v.entries.values.filter Entry.isFile)
  numbers : files.map (fun f => f.2.file) = List.range' first files.length
  prepared : ∀ f ∈ files, Prepared v base f

theorem Stage.complete {ω : IterOrder}
    (h : Stage v base first (extractionOrder ω v) files state) : Complete v base first files where
  entries := by
    rw [h.entries]
    exact (extractionOrder_perm ω v).filter _
  numbers := h.numbers
  prepared := h.prepared

theorem moved_nil {ω : IterOrder} (q : Path) (node : FsNode) :
    Objects v (extractionOrder ω v) files q node ↔ Moved v files [] q node := by
  have hall : ∀ e ∈ v.entries.values, e ∈ extractionOrder ω v := fun e he =>
    (extractionOrder_perm ω v).mem_iff.mpr he
  constructor
  · rintro (⟨e, he, -, hrest⟩ | ⟨f, hf, hq, hnode⟩)
    · exact .inl ⟨e, he, hrest⟩
    · exact .inr ⟨f, hf, .inr ⟨List.not_mem_nil, hq⟩, hnode⟩
  · rintro (⟨e, he, hrest⟩ | ⟨f, hf, hq, hnode⟩)
    · exact .inl ⟨e, he, .inr (hall e he), hrest⟩
    · rcases hq with ⟨hmem, -⟩ | ⟨-, hq⟩
      · cases hmem
      · exact .inr ⟨f, hf, hq, hnode⟩

namespace Complete

theorem nodup_pending (h : Complete v base first files) : (files.map Prod.snd).Nodup := by
  have hnumbers : ((files.map Prod.snd).map PendingFile.file).Nodup := by
    rw [List.map_map]
    exact h.numbers ▸ List.nodup_range'
  exact hnumbers.of_map

theorem eq_of_pending (h : Complete v base first files) {f f' : Entry × PendingFile}
    (hf : f ∈ files) (hf' : f' ∈ files) (heq : f.2 = f'.2) : f = f' :=
  List.inj_on_of_nodup_map h.nodup_pending hf hf' heq

variable (hv : Extractable v)
include hv

theorem eq_of_entry (h : Complete v base first files) {f f' : Entry × PendingFile}
    (hf : f ∈ files) (hf' : f' ∈ files) (heq : f.1 = f'.1) : f = f' := by
  have hnodup : (files.map Prod.fst).Nodup :=
    h.entries.nodup_iff.mpr (hv.nodup.sublist List.filter_sublist)
  exact List.inj_on_of_nodup_map hnodup hf hf' heq

theorem eq_of_heldAt (h : Complete v base first files) {f f' : Entry × PendingFile}
    (hf : f ∈ files) (hf' : f' ∈ files) (heq : heldAt v f = heldAt v f') : f = f' := by
  have hp := h.prepared f hf
  have hp' := h.prepared f' hf'
  exact h.eq_of_entry hv hf hf' (hv.ids _ hp.mem _ hp'.mem (hp.eq_of_heldAt hp' heq))

/-- The place of a file is free until it is moved there. -/
theorem place_free (h : Complete v base first files) {f : Entry × PendingFile} (hf : f ∈ files)
    {done : List PendingFile} (hdone : f.2 ∉ done) (node : FsNode) :
    ¬Moved v files done (entryPath v f.1) node := by
  have hp := h.prepared f hf
  rintro (⟨e, he, hkind, hpath, -⟩ | ⟨f', hf', hwhere, -⟩)
  · have hdir := hp.kind
    rw [hv.injective _ hp.mem e he hpath, hkind] at hdir
    cases hdir
  · have hp' := h.prepared f' hf'
    rcases hwhere with ⟨hmoved, hpath⟩ | ⟨-, hpath⟩
    · have heq := h.eq_of_entry hv hf hf' (hv.injective _ hp.mem _ hp'.mem hpath)
      exact hdone (heq ▸ hmoved)
    · exact hp'.ne_entry hv hp.mem hpath

/-- One commit moves one file. -/
theorem moved_step (h : Complete v base first files) {f : Entry × PendingFile} (hf : f ∈ files)
    {done : List PendingFile} (q : Path) (node : FsNode) :
    (Moved v files done q node ∧ q ≠ heldAt v f) ∨
        q = entryPath v f.1 ∧ node = .file (.own f.2.file) ↔
      Moved v files (done ++ [f.2]) q node := by
  have hp := h.prepared f hf
  constructor
  · rintro (⟨hdir | ⟨f', hf', hwhere, hnode⟩, hne⟩ | ⟨hpath, hnode⟩)
    · exact .inl hdir
    · refine .inr ⟨f', hf', ?_, hnode⟩
      rcases hwhere with ⟨hmoved, hpath⟩ | ⟨hheld, hpath⟩
      · exact .inl ⟨List.mem_append_left _ hmoved, hpath⟩
      · refine .inr ⟨fun hmem => ?_, hpath⟩
        rcases List.mem_append.mp hmem with hmem | hmem
        · exact hheld hmem
        · obtain rfl := h.eq_of_pending hf' hf (List.mem_singleton.mp hmem)
          exact hne hpath
    · exact .inr ⟨f, hf, .inl ⟨List.mem_append_right _ List.mem_cons_self, hpath⟩, hnode⟩
  · rintro (⟨e, he, hkind, hpath, hnode⟩ | ⟨f', hf', hwhere, hnode⟩)
    · exact .inl ⟨.inl ⟨e, he, hkind, hpath, hnode⟩, hpath ▸ hp.ne_entry hv he⟩
    · rcases hwhere with ⟨hmoved, hpath⟩ | ⟨hheld, hpath⟩
      · rcases List.mem_append.mp hmoved with hmem | hmem
        · refine .inl ⟨.inr ⟨f', hf', .inl ⟨hmem, hpath⟩, hnode⟩, ?_⟩
          exact hpath ▸ hp.ne_entry hv (h.prepared f' hf').mem
        · obtain rfl := h.eq_of_pending hf' hf (List.mem_singleton.mp hmem)
          exact .inr ⟨hpath, hnode⟩
      · have hne : f'.2 ∉ done := fun hmem => hheld (List.mem_append_left _ hmem)
        refine .inl ⟨.inr ⟨f', hf', .inr ⟨hne, hpath⟩, hnode⟩, fun heq => hheld ?_⟩
        rw [h.eq_of_heldAt hv hf' hf (hpath.symm.trans heq)]
        exact List.mem_append_right _ List.mem_cons_self

end Complete

/-- **The commits move every file to its place.** -/
theorem holds_commits {next : Nat} (hv : Extractable opened.index)
    (hcomplete : Complete opened.index root.staging first files) :
    Holds (Answers faults opened.index)
      (Building R opened container root.staging files (Moved opened.index files []) next)
      ((files.map Prod.snd).forM PendingFile.commit)
      (fun _ => Building R opened container root.staging files
        (Moved opened.index files (files.map Prod.snd)) next)
      (Interrupted R opened container faults) := by
  have ht : Tolerates faults (Answers faults opened.index)
      (Interrupted R opened container faults) := tolerates_interrupted fun i hi => hi.faulty
  refine .forM (I := fun done => Building R opened container root.staging files
    (Moved opened.index files done) next) fun done pending post hsplit => ?_
  have hmem : pending ∈ files.map Prod.snd := by
    rw [hsplit]
    exact List.mem_append_right done List.mem_cons_self
  obtain ⟨f, hf, rfl⟩ := List.mem_map.mp hmem
  have hdone : f.2 ∉ done := by
    have hnodup := hcomplete.nodup_pending
    rw [hsplit] at hnodup
    exact fun hmem => (List.nodup_append.mp hnodup).2.2 _ hmem _ List.mem_cons_self rfl
  have hp := hcomplete.prepared f hf
  have hroot : Moved opened.index files done [] .directory := by
    obtain ⟨e, he, hid⟩ := hv.root
    obtain ⟨hkind, hpath⟩ := hv.root_path e he hid
    exact .inl ⟨e, he, hkind, hpath.symm, rfl⟩
  unfold PendingFile.commit
  rw [hp.temp_eq, hp.final_eq hv]
  refine (holds_context ht fun ht => holds_rename ht (.inr ⟨f, hf, .inr ⟨hdone, rfl⟩, rfl⟩)
    (hcomplete.place_free hv hf hdone) hroot).bind fun _ => ?_
  exact .conseq (holds_modify Building.lasting (fun _ hw => hw.guarded)
    fun w => ⟨{ Frame.refl w with }, rfl⟩) (fun w hw => hw.congr (hcomplete.moved_step hv hf))
    (fun _ _ hw => hw) fun _ _ he => he

/-! ## The whole stage -/

/-- The objects of a new tree. -/
def NewTree (q : Path) (node : FsNode) : Prop := q = [] ∧ node = .directory

/-- **From a new tree to the whole index**, or to an error of the system. -/
theorem holds_stageTree (hv : Extractable opened.index)
    (hnames : ∀ e ∈ opened.index.entries.values, e.id ≠ 1 → validateName .unix e.name = .ok ())
    (hbatch : 1 ≤ batchSize) (hfile : opened.file = .file (.other container))
    (hroot : root.directories.lookup 1 = some []) :
    Holds (Answers faults opened.index)
      (Building R opened container root.staging [] NewTree first)
      (stageTree R .unix opened progress batchSize root)
      (fun _ w => ∃ files, Complete opened.index root.staging first files ∧
        Building R opened container root.staging files
          (Moved opened.index files (files.map Prod.snd)) (first + files.length) w)
      (Interrupted R opened container faults) := by
  have ht : Tolerates faults (Answers faults opened.index)
      (Interrupted R opened container faults) := tolerates_interrupted fun i hi => hi.faulty
  have hlookup : Result.ofOption (root.directories.lookup 1) "Output root is not open" =
      .ok [] := by
    rw [hroot]
    rfl
  unfold stageTree
  refine .bind (holds_onControl Building.lasting fun _ hw => hw.guarded) fun _ => ?_
  have hinstall : Holds (Answers faults opened.index)
      (Building R opened container root.staging [] NewTree first) (root.installRootId 1)
      (fun root' => Reached R opened container root.staging first [] (root', []))
      (Interrupted R opened container faults) := by
    unfold SafeRoot.installRootId
    refine (holds_require hlookup).bind fun directory => .assume fun hdir => ?_
    subst hdir
    refine (holds_sync ht Building.stable).bind fun _ => .pure fun w hw => ⟨[], ?_, ?_⟩
    · refine
        { staging := rfl, pending := rfl, entries := rfl, numbers := rfl, prepared := nofun
          directories := fun e he _ hdone => ?_ }
      have hid : e.id = 1 := hdone.resolve_right List.not_mem_nil
      rw [hid, (hv.root_path e he hid).2]
      exact AList.lookup_insert _
    · refine hw.congr fun q node => ?_
      obtain ⟨r, hr, hid⟩ := hv.root
      constructor
      · rintro ⟨rfl, rfl⟩
        obtain ⟨hkind, hpath⟩ := hv.root_path r hr hid
        exact .inl ⟨r, hr, .inl hid, hkind, hpath.symm, rfl⟩
      · rintro (⟨e, he, hdone, -, rfl, rfl⟩ | ⟨f, hf, -⟩)
        · exact ⟨(hv.root_path e he (hdone.resolve_right List.not_mem_nil)).2, rfl⟩
        · cases hf
  refine hinstall.bind fun root' => ?_
  have hloop : Holds (Answers faults opened.index)
      (Reached R opened container root.staging first [] (root', []))
      ((extractionOrder R.order opened.index).foldlM
        (extractEntry R .unix opened progress batchSize) (root', []))
      (Reached R opened container root.staging first (extractionOrder R.order opened.index))
      (Interrupted R opened container faults) :=
    .foldlM fun pre e post state hsplit => holds_extractEntry hv hnames hbatch hfile hsplit
  refine hloop.bind fun state => .exists fun files => .assume fun hstage => ?_
  have hcomplete := hstage.complete
  refine (holds_check ht Building.stable).bind fun _ => ?_
  rw [hstage.pending]
  refine .bind ((holds_commits hv hcomplete).pre fun w hw => hw.congr moved_nil) fun _ => ?_
  refine (holds_check ht Building.stable).bind fun _ => .pure fun w hw => ?_
  exact ⟨files, hcomplete, hw⟩

/-! ### No step refuses -/

section Accepts

variable {α : Type}

theorem accepts_perform (op : Op α) : Built Yields.accepting (perform op) := .call fun _ _ => rfl

theorem accepts_context {text : String} (op : Op α) :
    Built Yields.accepting ((perform op).context text) := .mapError trivial (accepts_perform op)

theorem accepts_require (r : Result α) : Built Yields.accepting (require r) := by
  cases r with
  | ok a => exact .pure a
  | error e => exact .call fun _ _ => rfl

theorem accepts_check : Built Yields.accepting (Prog.check : WorldProg Unit) :=
  .call fun _ _ => rfl

theorem accepts_createDirectory (os : Platform) (id parentId : UInt64) (name : String) :
    Built Yields.accepting (root.createDirectory os id parentId name) := by
  unfold SafeRoot.createDirectory
  refine (accepts_require _).bind fun _ => (accepts_require _).bind fun parent => ?_
  refine (accepts_context _).bind fun _ => (accepts_perform _).bind fun node => ?_
  refine (accepts_require _).bind fun _ => (accepts_context _).bind fun _ => .pure _

theorem accepts_extractFile (build : Build) (e : Entry) :
    Built Yields.accepting (extractFile R build opened progress batchSize root e) := by
  unfold extractFile SafeRoot.beginFile PendingFile.finishWriting
  refine .bind ?_ fun pending => .bind (.forM fun ks _ => ?_) fun _ => ?_
  · refine (accepts_require _).bind fun _ => (accepts_require _).bind fun parent => ?_
    refine .bind (.call fun _ _ => rfl) fun found => (accepts_require _).bind fun _ => ?_
    refine .bind (.call fun _ _ => rfl) fun r => (accepts_context _).bind fun file => ?_
    exact (accepts_perform _).bind fun _ => .bind (.call fun _ _ => rfl) fun _ => .pure _
  · unfold extractBatch decryptInto writeChunk
    refine accepts_check.bind fun _ => .bind (.parForEach fun k _ => ?_) fun _ => .forM fun k _ => ?_
    · refine accepts_check.bind fun _ => (accepts_context _).bind fun data => ?_
      exact .call fun _ _ => rfl
    · refine .bind (.call fun _ _ => rfl) fun data => (accepts_perform _).bind fun _ => ?_
      exact .call fun _ _ => rfl
  · exact .bind ((accepts_perform _).bind fun _ => accepts_perform _) fun _ => .pure _

theorem accepts_stageTree (build : Build) :
    Built Yields.accepting (stageTree R build opened progress batchSize root) := by
  unfold stageTree SafeRoot.installRootId
  refine .bind (.call fun _ _ => rfl) fun _ => .bind ?_ fun root' => ?_
  · exact (accepts_require _).bind fun _ => (accepts_perform _).bind fun _ => .pure _
  refine .bind (.foldlM (fun state _ e _ => ?_) trivial) fun state => accepts_check.bind fun _ => ?_
  · unfold extractEntry
    refine accepts_check.bind fun _ => ?_
    split
    · exact .pure _
    · split
      · exact (accepts_createDirectory _ _ _ _).bind fun _ => .pure _
      · exact (accepts_extractFile build e).bind fun _ => .pure _
  · refine .bind (.forM fun pending _ => ?_) fun _ => accepts_check.bind fun _ => .pure _
    exact (accepts_context _).bind fun _ => .call fun _ _ => rfl

end Accepts

/-! ### The tree -/

/-- Below `base` is exactly the index: every entry at its own path, and of every
file the chunks in order. The files of this run from `first` on are the files of
the index, each once. -/
structure Materialised (R : Reader Key) (opened : OpenedFile) (container : Nat) (base : Path)
    (first : Nat) (w : World) : Prop where
  directories : ∀ e ∈ opened.index.entries.values, e.kind = .directory →
    w.fs.tree (base ++ entryPath opened.index e) = some .directory
  files : ∃ files : List (Entry × Nat),
    (files.map Prod.fst).Perm (opened.index.entries.values.filter Entry.isFile) ∧
    files.map Prod.snd = List.range' first files.length ∧ w.nextOwn = first + files.length ∧
    ∀ f ∈ files, w.fs.tree (base ++ entryPath opened.index f.1) = some (.file (.own f.2)) ∧
      Written R opened container f.1 f.2 f.1.chunkIndices w
  only : ∀ q node, w.fs.tree (base ++ q) = some node →
    ∃ e ∈ opened.index.entries.values, q = entryPath opened.index e
  distinct : ∀ e ∈ opened.index.entries.values, ∀ e' ∈ opened.index.entries.values,
    entryPath opened.index e = entryPath opened.index e' → e = e'

theorem Complete.materialised (hv : Extractable opened.index)
    (h : Complete opened.index base first files)
    (hw : Building R opened container base files
      (Moved opened.index files (files.map Prod.snd)) (first + files.length) w) :
    Materialised R opened container base first w where
  directories e he hkind := (hw.objects _ _).mpr (.inl ⟨e, he, hkind, rfl, rfl⟩)
  files := by
    refine ⟨files.map fun f => (f.1, f.2.file), ?_, ?_, ?_, ?_⟩
    · rw [List.map_map]
      exact h.entries
    · rw [List.map_map, List.length_map]
      exact h.numbers
    · rw [List.length_map]
      exact hw.issued
    · intro placed hplaced
      obtain ⟨f, hf, rfl⟩ := List.mem_map.mp hplaced
      refine ⟨(hw.objects _ _).mpr (.inr ⟨f, hf, .inl ⟨?_, rfl⟩, rfl⟩), hw.filled f hf⟩
      exact List.mem_map_of_mem hf
  only q node hq := by
    rcases (hw.objects q node).mp hq with ⟨e, he, -, hpath, -⟩ | ⟨f, hf, hwhere, -⟩
    · exact ⟨e, he, hpath⟩
    · rcases hwhere with ⟨-, hpath⟩ | ⟨hheld, -⟩
      · exact ⟨f.1, (h.prepared f hf).mem, hpath⟩
      · exact absurd (List.mem_map_of_mem hf) hheld
  distinct := hv.injective

/-- The staging directory as `open_new_at` leaves it. -/
structure Fresh (root : SafeRoot) (w : World) : Prop where
  opened : root.directories.lookup 1 = some []
  guarded : Guarded root.staging w
  empty : ∀ q, q ≠ [] → w.fs.tree (root.staging ++ q) = none

theorem Fresh.building (h : Fresh root w) :
    Building R opened container root.staging [] NewTree w.nextOwn w where
  guarded := h.guarded
  objects q node := by
    by_cases hq : q = []
    · subst hq
      rw [List.append_nil, h.guarded.staging, Option.some.injEq, eq_comm]
      exact (and_iff_right rfl).symm
    · rw [h.empty q hq]
      exact iff_of_false nofun fun hnew => hq hnew.1
  filled := nofun
  issued := rfl

/-- **Extraction materialises exactly the index.** In every run the loop has ended
or can go on. It ends well with the tree of the index, and otherwise because it
was cancelled, because the system failed a call, or because a chunk does not
decrypt: never because a parent is missing or a name is taken. -/
theorem extraction_materialises (hbatch : 1 ≤ batchSize)
    (hfile : opened.file = .file (.other container)) {os : Platform} {header : Header W}
    {index : Index} (haccepted : validateIndex R.order os header index = .ok opened.index)
    (hnames : ∀ e ∈ index.entries, e.id ≠ 1 → SafeComponent e.name) (hfresh : Fresh root w)
    {labels : List (Label WorldInput EnvAction)} {task : Task World WorldInput Error}
    (hlabels : ∀ l ∈ labels, l.Uses (Answers faults opened.index) fun _ => True)
    (hrun : run (interleave World.env) ((do
      let _ ← stageTree R .unix opened progress batchSize root
      return () : WorldProg Unit).task, w) labels = some (task, w')) :
    (task = .done → Materialised R opened container root.staging w.nextOwn w') ∧
    (∀ e, task = .fail e → Interrupted R opened container faults e w') ∧
    (task.ended ∨ ∃ p, (task.step w' p).isSome) := by
  obtain ⟨hindex, heq⟩ := validateIndex_eq_ok.mp haccepted
  have hv : Extractable opened.index := heq ▸ extractable_indexOf hindex
  have hvalues : ∀ e ∈ opened.index.entries.values, e ∈ index.entries := fun e he =>
    (hindex.values_indexOf_perm .stored).mem_iff.mp (heq ▸ he)
  have hvalid : ∀ e ∈ opened.index.entries.values, e.id ≠ 1 →
      validateName .unix e.name = .ok () := by
    intro e he hid
    have hsafe := hnames e (hvalues e he) hid
    exact validateName_eq_ok.mpr ⟨hsafe.nonempty, hsafe.length, nofun, .inl (isName_unix hsafe)⟩
  have hstage : Holds (Answers faults opened.index)
      (Building R opened container root.staging [] NewTree w.nextOwn)
      (do
        let _ ← stageTree R .unix opened progress batchSize root
        return () : WorldProg Unit)
      (fun _ w' => ∃ files, Complete opened.index root.staging w.nextOwn files ∧
        Building R opened container root.staging files
          (Moved opened.index files (files.map Prod.snd)) (w.nextOwn + files.length) w')
      (Interrupted R opened container faults) :=
    .bind (holds_stageTree hv hvalid hbatch hfile hfresh.opened) fun _ => .pure fun _ hw => hw
  have hsafe := hstage.safe (fun u u' ⟨files, hcomplete, hu⟩ hrel =>
      ⟨files, hcomplete, Building.stable u u' hu hrel⟩)
    (fun e => World.stable_sharing fun u u' hi hu => hu.grow hi.history) hfresh.building
  obtain ⟨hleft, -⟩ := Task.Safe.run (I := fun _ => True) hsafe
    (fun _ a _ _ ha => Relation.ReflTransGen.single ⟨a, ha⟩)
    ⟨fun _ _ _ _ => trivial, fun _ _ _ _ => trivial⟩ trivial hlabels hrun
  refine ⟨?_, ?_, ?_⟩
  · rintro rfl
    obtain ⟨files, hcomplete, hw'⟩ := Task.Safe.of_done hleft
    exact hcomplete.materialised hv hw'
  · rintro e rfl
    exact Task.Safe.of_fail hleft
  · have : Nonempty WorldInput := ⟨⟨none, 0, fun _ => false, fun _ => 0, 0⟩⟩
    have hbuilt : Built Yields.accepting (do
        let _ ← stageTree R .unix opened progress batchSize root
        return () : WorldProg Unit) := (accepts_stageTree .unix).bind fun _ => .pure ()
    have hwilling := hbuilt.willing (k := fun _ => .done) (h := .fail) (fun _ => trivial)
      fun _ => trivial
    exact (Task.Willing.run hwilling hrun).imp id fun ⟨p, _, hp⟩ => ⟨p, hp⟩

/-! ### A run -/

/-- A container file beside which the staging directory `o` has been made. -/
def sampleTree : FileTree OsString FsNode
  | [] => some .directory
  | [.utf8 "v"] => some (.file (.other 0))
  | _ => none

def sampleWorld : World :=
  let start := World.start ⟨sampleTree, fun _ => ⟨List.replicate 21 7, 0⟩⟩ 1
  { start with fs := { start.fs with tree := sampleTree.put [.utf8 "o"] .directory } }

def sampleOpened : OpenedFile :=
  ⟨.file (.other 0), sampleHeader (ByteArr.zero 48), indexOf sampleIndex.entries, ByteArr.zero 32, 0⟩

/-- A reader whose maps yield the oldest entry first. -/
def sampleReader : Reader Unit :=
  ⟨clearCrypto, ⟨fun _ => none, fun _ => none⟩, ⟨List.reverse, List.reverse_perm⟩, .unix,
    .ascii, id⟩

def sampleRoot : SafeRoot := ⟨(∅ : HashMap UInt64 Path).insert 1 [], [], .utf8 "o", .utf8 "t"⟩

def sampleInput : WorldInput := ⟨none, 0, fun _ => true, fun _ => 1, 0⟩

/-- One directory, then one file of one chunk, then the commit of the file. -/
def sampleLabels : List (Label WorldInput EnvAction) :=
  List.replicate 14 (.task (.here sampleInput)) ++
    List.replicate 3 (.task (.child 0 (.here sampleInput))) ++ [.task .join] ++
    List.replicate 9 (.task (.here sampleInput))

theorem sampleRoot_fresh : Fresh sampleRoot sampleWorld where
  opened := rfl
  guarded :=
    { staging := rfl
      alone := by
        rintro q ⟨r, rfl⟩
        cases r <;> rfl
      current := fun n => List.mem_cons_self }
  empty q hq := by
    have hne : sampleRoot.staging ++ q ≠ [.utf8 "o"] := by
      intro heq
      exact hq (List.cons.inj heq).2
    refine (FileTree.put_of_ne hne).trans ?_
    obtain ⟨a, r, rfl⟩ := List.exists_cons_of_ne_nil hq
    rfl

theorem extraction_materialises_sample : ∃ w',
    Materialised sampleReader sampleOpened 0 [.utf8 "o"] 0 w' := by
  have hdone : (run (interleave World.env) ((do
      let _ ← stageTree sampleReader .unix sampleOpened ⟨.extract, 5, .frontend⟩ 4 sampleRoot
      return () : WorldProg Unit).task, sampleWorld) sampleLabels).map (fun c => c.1.isDone) =
        some true := by
    have horder : extractionOrder sampleReader.order sampleOpened.index =
        sampleReader.order.arrange sampleOpened.index.entries.values :=
      List.mergeSort_of_pairwise (by decide +kernel)
    unfold stageTree
    rw [horder]
    decide +kernel
  obtain ⟨⟨task, w'⟩, hrun, htask⟩ := Option.map_eq_some_iff.mp hdone
  have haccepted : validateIndex sampleReader.order .unix (sampleHeader (ByteArr.zero 48)) sampleIndex =
      .ok sampleOpened.index := validateIndex_eq_ok.mpr ⟨sampleIndex_accepted _, rfl⟩
  have hnames : ∀ e ∈ sampleIndex.entries, e.id ≠ 1 → SafeComponent e.name := by
    have hname : ∀ e ∈ sampleIndex.entries, e.id ≠ 1 → e.name = "docs" ∨ e.name = "note" := by
      decide
    intro e he hid
    rcases hname e he hid with h | h <;> rw [h] <;>
      exact ⟨by decide, by decide, by decide, by decide, by decide⟩
  have hinput : Answers (fun _ => False) sampleOpened.index sampleInput :=
    ⟨nofun, by decide +kernel⟩
  have hlabels : ∀ l ∈ sampleLabels, l.Uses (Answers (fun _ => False) sampleOpened.index)
      fun _ => True := by
    intro l hl
    simp only [sampleLabels, List.mem_append, List.mem_replicate, List.mem_singleton] at hl
    rcases hl with ((⟨-, rfl⟩ | ⟨-, rfl⟩) | rfl) | ⟨-, rfl⟩
    · exact hinput
    · exact hinput
    · trivial
    · exact hinput
  exact ⟨w', (extraction_materialises (by decide) rfl haccepted hnames sampleRoot_fresh hlabels
    hrun).1 (Task.isDone_iff.mp htask)⟩

end CipherFS.Extract
