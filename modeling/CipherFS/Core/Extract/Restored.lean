import CipherFS.Core.Cleanup
import CipherFS.Core.ContainerTree
import CipherFS.Core.Extract.Leaving
import CipherFS.Core.Extract.Materialised
import CipherFS.Core.Progress.Exact
import CipherFS.Core.V2.OpenBytes

/-!
# Extraction restores the tree of the container

When an extraction ends well, the tree below the destination is the tree of the
container: the same paths, the same directories, and the files with the contents
that their chunks decrypt to. The run opens the container by itself, and may be
disturbed by anybody outside the directories that it makes.
-/

namespace CipherFS.Extract

open WorldProg Prog V2 Result

variable {α Key : Type} {R : Reader Key} {ω : IterOrder} {v : ValidatedIndex} {req : ExtractRequest} {opened : OpenedFile}
  {root : SafeRoot} {base base' : Path} {b : Bytes} {c first next : Nat}
  {files : List (Entry × PendingFile)} {S : Path → FsNode → Prop} {a : EnvAction}
  {o : OpenedContainer (ByteArr 48)} {u w w' : World} {fs : Fs} {nextOther : Nat}
  {labels : List (Label WorldInput EnvAction)}

/-! ## Before and beside the tree -/

/-- The run has made nothing yet. -/
structure Untouched (w : World) : Prop where
  tree : w.fs.tree = w.others.tree
  rooted : w.others.tree.Rooted
  recorded : Recorded w

/-- Outside `base`, where nobody else is, the file system is as others have made it. -/
structure Settled (base : Path) (w : World) : Prop where
  staging : w.fs.tree base = some .directory
  alone : ∀ q, base <+: q → w.others.tree q = none
  outside : FileTree.SameOutside (base <+: ·) w.fs.tree w.others.tree
  rooted : w.others.tree.Rooted

/-- What others make has a parent of theirs, as long as none of it is gone. -/
theorem rooted_env (hi : Interferes w w') (hrooted : w.others.tree.Rooted)
    (hkept : ∀ p node, w.others.tree p = some node → w.fs.tree p = some node) :
    w'.others.tree.Rooted := by
  intro p node hp hnode
  have hparent : w.others.tree p.dropLast = some .directory := by
    rcases hi.tree p with ⟨-, hothers⟩ | ⟨-, hparent, -⟩
    · exact hrooted p node hp (hothers.symm.trans hnode)
    · exact hparent
  rcases hi.tree p.dropLast with ⟨-, hothers⟩ | ⟨hnone, -⟩
  · rw [hothers, hparent]
  · rw [hkept _ _ hparent] at hnone
    cases hnone

namespace Untouched

theorem start (hrooted : fs.tree.Rooted) (hfs : fs.Clean nextOther) :
    Untouched (World.start fs nextOther) where
  tree := rfl
  rooted := hrooted
  recorded := ⟨fun _ => List.mem_cons_self, fun m _ hv => List.mem_singleton.mp hv ▸ hfs.length m⟩

theorem env (hw : Untouched w) (h : w.env a = some w') : Untouched w' := by
  have hi := World.interferes_of_env h
  refine ⟨?_, rooted_env hi hw.rooted fun p node hp => ?_, hw.recorded.env h⟩
  · ext1 q
    rcases hi.tree q with ⟨hfs, hothers⟩ | ⟨-, -, node, hfs, hothers, -⟩
    · rw [hfs, hothers, hw.tree]
    · rw [hfs, hothers]
  · rw [hw.tree, hp]

theorem stable : World.sharing.Stable Untouched := World.stable_env fun _ _ _ h hw => hw.env h

theorem ofFiles : OfFiles Untouched := by
  intro w w' h hw
  refine ⟨?_, ?_, hw.recorded.own h.leaves⟩
  · rw [h.fs, h.others, hw.tree]
  · rw [h.others]
    exact hw.rooted

end Untouched

namespace Settled

theorem interferes (hw : Settled base w) (hi : Interferes w w') : Settled base w' := by
  have hkept := kept_below hi hw.staging hw.alone
  refine ⟨?_, ?_, ?_, rooted_env hi hw.rooted fun p node hp => ?_⟩
  · rw [(hkept base (List.prefix_refl _)).1, hw.staging]
  · intro q hq
    rw [(hkept q hq).2, hw.alone q hq]
  · intro q hq
    rcases hi.tree q with ⟨hfs, hothers⟩ | ⟨-, -, node, hfs, hothers, -⟩
    · rw [hfs, hothers, hw.outside q hq]
    · rw [hfs, hothers]
  · by_cases hbase : base <+: p
    · rw [hw.alone p hbase] at hp
      cases hp
    · rw [hw.outside p hbase, hp]

theorem stable : World.sharing.Stable (Settled base) :=
  World.stable_sharing fun _ _ hi hw => hw.interferes hi

theorem moves (hw : Settled base w) (h : Moves (base <+: ·) w w') : Settled base w' where
  staging := h.directories _ hw.staging
  alone q hq := by
    rw [h.others]
    exact hw.alone q hq
  outside := by
    rw [h.others]
    exact h.tree.trans hw.outside
  rooted := by
    rw [h.others]
    exact hw.rooted

/-- What others have not made above `base` they have not made below it either. -/
theorem alone_of_vacant (hw : Settled base w) {p : Path} (hp : w.fs.tree p = none) (q : Path) :
    w.others.tree (p ++ q) = none := by
  have hothers : w.others.tree p = none := by
    by_cases hbase : base <+: p
    · exact hw.alone p hbase
    · rw [← hw.outside p hbase, hp]
  exact hw.rooted.below hothers q

end Settled

/-! ## Opening -/

/-- The container is the file `c`, and the run has made nothing yet. -/
def Finds (path : Path) (c : Nat) (w : World) : Prop :=
  Untouched w ∧ w.fs.follow 41 path = some (.file (.other c))

theorem follow_env {p : Path} {node : FsNode} (h : w.env a = some w') : ∀ {n : Nat},
    w.fs.follow n p = some node → w'.fs.follow n p = some node := by
  intro n
  induction n generalizing p with
  | zero => exact fun hp => hp
  | succ n ih =>
      intro hp
      rw [Fs.follow] at hp ⊢
      cases hnode : w.fs.tree p with
      | none =>
          rw [hnode] at hp
          cases hp
      | some m =>
          rw [World.env_keeps h hnode]
          rw [hnode] at hp
          cases m with
          | symlink target => exact ih hp
          | directory => exact hp
          | file ino => exact hp
          | special => exact hp

theorem Finds.stable {path : Path} : World.sharing.Stable (Finds path c) := by
  apply World.stable_env
  rintro w a w' h ⟨hw, hfound⟩
  exact ⟨hw.env h, follow_env h hfound⟩

theorem Finds.ofFiles {path : Path} : OfFiles (Finds path c) := by
  rintro w w' h ⟨hw, hfound⟩
  refine ⟨Untouched.ofFiles w w' h hw, ?_⟩
  rw [h.fs]
  exact hfound

/-- The container is read from the contents that it has had. -/
theorem reads_found {path : Path} :
    ReadsFrom path (.other c) (fun w b => ∃ v ∈ w.versions c, v.content = b) (Finds path c) where
  stable := Finds.stable
  found _ hw := hw.2
  current w hw := ⟨_, hw.1.recorded.current c, rfl⟩
  grow w w' b _ hrel := by
    rintro ⟨v, hv, hb⟩
    have hstable : World.sharing.Stable fun w => v ∈ w.versions c :=
      World.stable_env fun _ _ _ h hv => World.mem_versions_env h hv
    exact ⟨v, hstable w w' hv hrel, hb⟩
  logged w fs hw := ⟨Finds.ofFiles w _ (observes_log w fs) hw, fun _ hb => hb⟩

/-- **The container is opened from one content if it has only had one.** -/
theorem holds_openInPool : Holds (fun _ => True) (Finds req.container c) (openInPool R req)
    (fun opened w => opened.file = .file (.other c) ∧ Finds req.container c w ∧
      Knows (fun w b => ∃ v ∈ w.versions c, v.content = b)
        (fun b => openBytes R b req.password = .ok (opened.withContent b)) w) fun _ _ => True := by
  have hfinds : ∀ {α : Type} {m : WorldProg α}, Built observing m → Holds (fun _ => True)
      (Finds req.container c) m (fun _ => Finds req.container c) fun _ _ => True := by
    intro α m hm
    exact (holds_observing hm Finds.ofFiles Finds.stable).conseq (fun _ hw => hw)
      (fun _ _ hw => hw.2) fun _ _ he => he
  unfold openInPool openReading
  refine .bind (hfinds (kept_context observes_reading)) fun _ => ?_
  refine .bind (hfinds observes_check) fun _ => .bind (hfinds (observes_event _)) fun _ => ?_
  refine .bind (reads_found.holds_openStored R req.password) fun opened => .assume fun hfile => ?_
  refine .bind (holds_observing observes_check ?_ reads_found.stable_knows) fun _ => .pure ?_
  · rintro w w' h ⟨hw, hknows⟩
    refine ⟨Finds.ofFiles w w' h hw, ?_⟩
    intro b hb
    simp only [h.versions] at hb
    exact hknows b hb
  · exact fun w hw => ⟨hfile, hw.2⟩

/-! ## The staging directory -/

/-- `extract_v2_inner` on Unix from the open container to the new staging directory. -/
def prepareTree (R : Reader Key) (req : ExtractRequest) (opened : OpenedFile) :
    WorldProg (ProgressTracker × SafeRoot) := do
  let total ← require (extractionTotal R.order opened.index)
  let progress ← ProgressTracker.new .extract total .frontend
  let root ← SafeRoot.choose req.output req.stagingPath .unix
  let root ← root.make
  return (progress, root)

theorem extractOpened_eq (hos : R.os = .unix) :
    extractOpened R req opened = prepareTree R req opened >>= fun made =>
      Prog.onError (do
        let root ← stageTree R .unix opened made.1 req.batchSize made.2
        publishTree R.order .unix root) made.2.dropRoot := by
  unfold extractOpened
  rw [buildFor_unix hos, hos]
  rfl

/-- The new directory is empty, and the run has made nothing else. -/
structure NewStaging (base : Path) (w : World) : Prop where
  guarded : Guarded base w
  empty : ∀ q, q ≠ [] → w.fs.tree (base ++ q) = none
  settled : Settled base w

theorem NewStaging.stable : World.sharing.Stable (NewStaging base) := by
  apply World.stable_sharing
  intro w w' hi hw
  have hframe := Frame.of_interferes hi hw.guarded
  refine ⟨hw.guarded.frame hframe, ?_, hw.settled.interferes hi⟩
  intro q hq
  rw [hframe.below _ (List.prefix_append base q)]
  exact hw.empty q hq

/-- `create_dir` makes a directory in which nothing is. -/
theorem Untouched.createDir (hw : Untouched w) (hvacant : w.fs.vacant base = .ok ()) :
    NewStaging base { w with fs := { w.fs with tree := w.fs.tree.put base .directory } } := by
  have hnone := (vacant_eq_ok.mp hvacant).1
  have hbelow : ∀ q, w.others.tree (base ++ q) = none := by
    rw [hw.tree] at hnone
    exact hw.rooted.below hnone
  have halone : ∀ q, base <+: q → w.others.tree q = none := by
    rintro q ⟨r, rfl⟩
    exact hbelow r
  refine ⟨⟨FileTree.put_self, halone, hw.recorded.current⟩, ?_, ?_⟩
  · intro q hq
    have hne : base ++ q ≠ base := fun heq => hq (List.append_right_eq_self.mp heq)
    show w.fs.tree.put base .directory (base ++ q) = none
    rw [FileTree.put_of_ne hne, hw.tree]
    exact hbelow q
  · refine ⟨FileTree.put_self, halone, ?_, hw.rooted⟩
    show FileTree.SameOutside (base <+: ·) (w.fs.tree.put base .directory) w.others.tree
    rw [← hw.tree]
    exact .put (List.prefix_refl base)

theorem holds_make : Holds (fun _ => True) Untouched root.make
    (fun root' w => (root.Same root' ∧ root'.directories.lookup 1 = some []) ∧
      NewStaging root'.staging w) fun _ _ => True := by
  unfold SafeRoot.make
  refine .bind (Q := fun _ => NewStaging root.staging)
    (.mapError (holds_perform Untouched.stable (fun _ _ _ _ _ _ => trivial) ?_)) fun _ => ?_
  · intro i w _ w' hw hop
    have hop := Route.io_ok hop
    dsimp only at hop
    cases hvacant : w.fs.vacant root.staging with
    | error e =>
        rw [hvacant] at hop
        cases (Prod.mk.inj hop).1
    | ok v =>
        rw [hvacant] at hop
        obtain ⟨-, rfl⟩ := Prod.mk.inj hop
        exact hw.createDir hvacant
  refine .bind (Q := fun _ => NewStaging root.staging)
    (.mapError (holds_perform NewStaging.stable (fun _ _ _ _ _ _ => trivial) ?_)) fun _ => .pure ?_
  · intro i w _ w' hw hop
    unfold Op.orDisturbed Op.openDirectory Op.reading Op.io at hop
    cases hfault : i.fault with
    | none =>
        simp only [hfault, Option.isSome_none, Bool.false_eq_true, if_false] at hop
        obtain ⟨-, rfl⟩ := Prod.mk.inj hop
        exact hw
    | some text =>
        simp only [hfault] at hop
        cases (Prod.mk.inj hop).1
  · intro w hw
    exact ⟨⟨⟨rfl, rfl⟩, AList.lookup_insert _⟩, hw⟩

/-- What the loop over the entries finds. -/
structure Begun (req : ExtractRequest) (made : ProgressTracker × SafeRoot) : Prop where
  plain : made.1.reporter.Plain
  target : made.2.target = req.output
  opened : made.2.directories.lookup 1 = some []

theorem holds_prepareTree : Holds (fun _ => True) Untouched (prepareTree R req opened)
    (fun made w => Begun req made ∧ NewStaging made.2.staging w) fun _ _ => True := by
  have huntouched : ∀ {α : Type} {V : α → Prop} {m : WorldProg α}, Yields observing V m →
      Holds (fun _ => True) Untouched m (fun a w => V a ∧ Untouched w) fun _ _ => True :=
    fun hm => holds_observing hm Untouched.ofFiles Untouched.stable
  have htracker : ∀ total, Yields observing (fun progress => progress.reporter.Plain)
      (ProgressTracker.new .extract total .frontend : WorldProg ProgressTracker) := by
    intro total
    unfold ProgressTracker.new
    refine .bind observes_onControl fun _ _ => .bind observes_onControl fun _ _ => ?_
    exact .bind observes_onControl fun _ _ => .pure Reporter.plain_frontend
  unfold prepareTree
  refine .bind (huntouched (observes_require _)) fun total => .assume fun _ => ?_
  refine .bind (huntouched (htracker total)) fun progress => .assume fun hplain => ?_
  refine .bind (huntouched (observes_choose _ _ _)) fun root => .assume fun htarget => ?_
  refine .bind holds_make fun root' => .assume fun hmade => .pure fun w hw => ⟨?_, hw⟩
  exact ⟨hplain, hmade.1.2.trans htarget, hmade.2⟩

/-! ## Publication -/

/-- Below `base`, where nobody else is, are the objects of `S`. -/
def Stands (R : Reader Key) (opened : OpenedFile) (c : Nat) (base : Path)
    (files : List (Entry × PendingFile)) (S : Path → FsNode → Prop) (w : World) : Prop :=
  ∃ next, Building R opened c base files S next w

namespace Stands

theorem stable : World.sharing.Stable (Stands R opened c base files S) := by
  rintro w w' ⟨next, hw⟩ hrel
  exact ⟨next, Building.stable w w' hw hrel⟩

theorem ofFiles : OfFiles (Stands R opened c base files S) := by
  rintro w w' h ⟨next, hw⟩
  refine ⟨w'.nextOwn, ⟨?_, ?_, ?_⟩, ?_, ?_, rfl⟩
  · rw [h.fs]
    exact hw.guarded.staging
  · rw [h.others]
    exact hw.guarded.alone
  · rw [h.fs, h.versions]
    exact hw.guarded.current
  · rw [h.fs]
    exact hw.objects
  · intro f hf
    refine (hw.filled f hf).grow (by rw [h.fs]) fun n => ?_
    rw [h.versions]
    exact List.Subset.refl _

/-- The move takes the tree along, and leaves nobody else at its new place. -/
theorem move {target : Path} (hw : Stands R opened c base files S w) (hsettled : Settled base w)
    (hvacant : w.fs.vacant target = .ok ()) :
    Stands R opened c target files S
      { w with fs := { w.fs with tree := w.fs.tree.move base target } } := by
  obtain ⟨next, hw⟩ := hw
  refine ⟨next, ⟨?_, ?_, hw.guarded.current⟩, ?_, hw.filled, hw.issued⟩
  · have hroot : w.fs.tree.move base target (target ++ []) = w.fs.tree (base ++ []) :=
      FileTree.move_append []
    rw [List.append_nil, List.append_nil] at hroot
    exact hroot.trans hw.guarded.staging
  · rintro q ⟨r, rfl⟩
    exact hsettled.alone_of_vacant (vacant_eq_ok.mp hvacant).1 r
  · intro q node
    show w.fs.tree.move base target (target ++ q) = some node ↔ S q node
    rw [FileTree.move_append]
    exact hw.objects q node

end Stands

theorem Settled.ofFiles : OfFiles (Settled base) := by
  intro w w' h hw
  refine ⟨?_, ?_, ?_, ?_⟩
  · rw [h.fs]
    exact hw.staging
  · rw [h.others]
    exact hw.alone
  · rw [h.fs, h.others]
    exact hw.outside
  · rw [h.others]
    exact hw.rooted

/-- **The tree is at the destination as it was built.** -/
theorem holds_publishTree {ω : IterOrder} {os : Platform} :
    Holds (fun _ => True) (fun w => Stands R opened c root.staging files S w ∧
        Settled root.staging w) (publishTree ω os root)
      (fun _ => Stands R opened c root.target files S) fun _ _ => True := by
  have hstable : World.sharing.Stable fun w => Stands R opened c root.staging files S w ∧
      Settled root.staging w := fun w w' hw hrel =>
    ⟨Stands.stable w w' hw.1 hrel, Settled.stable w w' hw.2 hrel⟩
  have hfiles : OfFiles fun w => Stands R opened c root.staging files S w ∧
      Settled root.staging w := fun w w' h hw =>
    ⟨Stands.ofFiles w w' h hw.1, Settled.ofFiles w w' h hw.2⟩
  have hbefore : ∀ {α : Type} {m : WorldProg α}, Built observing m → Holds (fun _ => True)
      (fun w => Stands R opened c root.staging files S w ∧ Settled root.staging w) m
      (fun _ w => Stands R opened c root.staging files S w ∧ Settled root.staging w)
      fun _ _ => True := by
    intro α m hm
    exact (holds_observing hm hfiles hstable).conseq (fun _ hw => hw) (fun _ _ hw => hw.2)
      fun _ _ he => he
  have hafter : ∀ {α : Type} {m : WorldProg α}, Built observing m → Holds (fun _ => True)
      (Stands R opened c root.target files S) m (fun _ => Stands R opened c root.target files S)
      fun _ _ => True := by
    intro α m hm
    exact (holds_observing hm Stands.ofFiles Stands.stable).conseq (fun _ hw => hw)
      (fun _ _ hw => hw.2) fun _ _ he => he
  have hcommit : Holds (fun _ => True)
      (fun w => Stands R opened c root.staging files S w ∧ Settled root.staging w) (root.commit ω os)
      (fun _ => Stands R opened c root.target files S) fun _ _ => True := by
    unfold SafeRoot.commit
    refine .bind (hbefore (.forM fun d _ => observes_syncDirectory _ os)) fun _ => ?_
    refine .bind (Q := fun _ => Stands R opened c root.target files S)
      (.mapError (holds_perform hstable (fun _ _ _ _ _ _ => trivial) ?_)) fun _ => ?_
    · rintro i w _ w' ⟨hw, hsettled⟩ hop
      have hop := Route.io_ok hop
      dsimp only at hop
      rw [hsettled.staging] at hop
      cases hvacant : w.fs.vacant root.target with
      | error e =>
          rw [hvacant] at hop
          cases (Prod.mk.inj hop).1
      | ok v =>
          rw [hvacant] at hop
          obtain ⟨-, rfl⟩ := Prod.mk.inj hop
          exact hw.move hsettled hvacant
    · exact hafter (.bind (Yields.attempt (observes_syncDirectory root.parent os)).built fun _ => .pure _)
  unfold publishTree
  refine .bind (hbefore (observes_event _)) fun _ => .bind (hbefore (observes_event _)) fun _ => ?_
  refine .bind hcommit fun warning => ?_
  cases warning with
  | none => exact hafter (observes_event _)
  | some text => exact .bind (hafter (observes_event _)) fun _ => hafter (observes_event _)

/-! ## The tree of the container -/

/-- A file that is written holds the content of its entry. -/
theorem Written.fileContent_eq {e : Entry} {file : Nat}
    (hw : Written R opened c e file e.chunkIndices w) (honly : ∀ v ∈ w.versions c, v.content = b) :
    fileContent R.crypto (opened.withContent b) e =
      .ok (w.fs.inodes (.own file)).content := by
  obtain ⟨parts, hparts, hcontent⟩ := hw
  have hsame : List.Forall₂ (fun k data =>
      decryptChunk R.crypto (opened.withContent b) e k = .ok data) e.chunkIndices parts := by
    refine hparts.imp ?_
    rintro k data ⟨inode, hinode, hdata⟩
    rw [← honly inode hinode]
    exact hdata
  rw [fileContent, mapM_eq_ok.mpr hsame, hcontent]
  rfl

/-- **A complete tree is the tree of the container.** -/
theorem Stands.has_iff (hcomplete : Complete opened.index base' first files)
    (hw : Stands R opened c base files (Moved opened.index files (files.map Prod.snd)) w)
    (honly : ∀ v ∈ w.versions c, v.content = b) (p : Path) (x : Object) :
    w.fs.Has (base ++ p) x ↔ (opened.withContent b).Has R.crypto p x := by
  obtain ⟨next, hw⟩ := hw
  cases x with
  | directory =>
      show w.fs.tree (base ++ p) = some .directory ↔ _
      rw [hw.objects]
      constructor
      · rintro (⟨e, he, hkind, rfl, -⟩ | ⟨f, -, -, hnode⟩)
        · exact ⟨e, he, rfl, hkind⟩
        · cases hnode
      · rintro ⟨e, he, rfl, hkind⟩
        exact .inl ⟨e, he, hkind, rfl, rfl⟩
  | file content =>
      constructor
      · rintro ⟨ino, hnode, hcontent⟩
        rcases (hw.objects p _).mp hnode with ⟨e, -, -, -, hnode⟩ | ⟨f, hf, hplace, hnode⟩
        · cases hnode
        · obtain rfl := FsNode.file.inj hnode
          have hp := hcomplete.prepared f hf
          rcases hplace with ⟨-, rfl⟩ | ⟨hnot, -⟩
          · refine ⟨f.1, hp.mem, rfl, hp.kind, ?_⟩
            rw [← hcontent]
            exact (hw.filled f hf).fileContent_eq honly
          · exact absurd (List.mem_map_of_mem hf) hnot
      · rintro ⟨e, he, rfl, hkind, hcontent⟩
        have hmem : e ∈ files.map Prod.fst :=
          hcomplete.entries.mem_iff.mpr (List.mem_filter.mpr ⟨he, Entry.isFile_iff.mpr hkind⟩)
        obtain ⟨f, hf, rfl⟩ := List.mem_map.mp hmem
        refine ⟨.own f.2.file, (hw.objects _ _).mpr (.inr ⟨f, hf, .inl ⟨?_, rfl⟩, rfl⟩), ?_⟩
        · exact List.mem_map_of_mem hf
        · have hsame := (hw.filled f hf).fileContent_eq honly
          exact Except.ok.inj (hsame.symm.trans hcontent)

/-! ## The operation -/

theorem leaves_prepareTree : Built leaving (prepareTree R req opened) := by
  have hobserves : ∀ {α : Type} {m : WorldProg α}, Built observing m → Built leaving m :=
    leaves_of_observes
  unfold prepareTree
  refine .bind (leaves_require _).built fun total => ?_
  refine .bind (hobserves observes_newTracker) fun progress => ?_
  refine .bind (hobserves (observes_choose _ _ _).built) fun root => ?_
  exact .bind root.leaves_make.built fun _ => .pure _

theorem leaves_extractOpened (hos : R.os = .unix) : Built leaving (extractOpened R req opened) := by
  rw [extractOpened_eq hos]
  refine .bind leaves_prepareTree fun made => .onError ?_ made.2.leaves_dropRoot
  exact .bind (leaves_stageTree made.2) fun root _ => leaves_publishTree _ _ root

/-- What holds at the end of a program that ends well. -/
theorem Holds.of_done {A : WorldInput → Prop} {P : World → Prop} {Q : Unit → World → Prop}
    {m : WorldProg Unit} (h : Holds A P m Q fun _ _ => True) (hQ : World.sharing.Stable (Q ()))
    (hu : P u) (hlabels : ∀ l ∈ labels, l.Uses A fun _ => True)
    (hrun : run (interleave World.env) (m.task, u) labels = some (.done, w)) : Q () w := by
  have hsafe := h.safe (s := u) hQ (fun _ _ _ _ _ => trivial) hu
  obtain ⟨hend, -⟩ := Task.Safe.run (I := fun _ => True) hsafe
    (fun v a v' _ ha => .single ⟨a, ha⟩) ⟨fun _ _ _ _ => trivial, fun _ _ _ _ => trivial⟩ trivial
    hlabels hrun
  exact Task.Safe.of_done hend

/-- What a file has had stays on record. -/
theorem versions_run {m : WorldProg Unit} {v : Inode} (hm : Built leaving m)
    (hv : v ∈ u.versions c)
    (hrun : run (interleave World.env) (m.task, u) labels = some (.done, w)) :
    v ∈ w.versions c := by
  have hstable : World.sharing.Stable fun w => v ∈ w.versions c :=
    World.stable_env fun _ _ _ h hv => World.mem_versions_env h hv
  have hholds := holds_kept (P := fun w => v ∈ w.versions c) hm ?_ hstable
  · have hend := Holds.of_done hholds (fun w w' hw hrel => ⟨hw.1, hstable w w' hw.2 hrel⟩) hv
      (fun l _ => l.uses_true) hrun
    exact hend.2
  · intro w w' h hw
    rw [h.versions]
    exact hw

/-- Every index that `open` yields on Unix can be extracted. -/
theorem extractable_of_validated (h : Validated R opened) (hos : R.os = .unix) :
    Extractable opened.index ∧ ∀ e ∈ opened.index.entries.values, e.id ≠ 1 →
      validateName .unix e.name = .ok () := by
  obtain ⟨index, hvalid⟩ := h
  obtain ⟨hindex, heq⟩ := validateIndex_eq_ok.mp hvalid
  rw [hos] at hindex
  refine ⟨heq ▸ extractable_indexOf hindex, ?_⟩
  intro e he hid
  have hmem : e ∈ index.entries := (hindex.values_indexOf_perm .stored).mem_iff.mp (heq ▸ he)
  have haccepted := (hindex.entries e hmem).root_or_name
  rwa [if_neg hid] at haccepted

/-- **The open container comes to stand at the destination.** -/
theorem extractOpened_restores (hos : R.os = .unix) (hvalid : Validated R opened)
    (hbatch : 1 ≤ req.batchSize) (hfile : opened.file = .file (.other c)) (hu : Untouched u)
    (hlabels : ∀ l ∈ labels, l.Uses (Answers (fun _ => True) opened.index) fun _ => True)
    (hrun : run (interleave World.env) ((extractOpened R req opened).task, u) labels =
      some (.done, w)) :
    ∃ base first files, Complete opened.index base first files ∧
      Stands R opened c req.output files (Moved opened.index files (files.map Prod.snd)) w := by
  have henv : ∀ v a v', World.env v a = some v' → World.sharing.rel v v' := fun _ a _ ha =>
    .single ⟨a, ha⟩
  obtain ⟨hv, hnames⟩ := extractable_of_validated hvalid hos
  rw [extractOpened_eq hos] at hrun
  rcases leaves_prepareTree.passed hrun with ⟨before, rest, made, v, rfl, hprepare, hrest⟩ | ⟨hnot, -⟩
  swap
  · cases hnot
  obtain ⟨hbegun, hnew⟩ := holds_prepareTree.at_result
    (fun v v' hv hrel => ⟨hv.1, NewStaging.stable v v' hv.2 hrel⟩) henv hu
    (fun l _ => l.uses_true) hprepare
  rcases (leaves_stageTree made.2).passed_onError made.2.leaves_dropRoot hrest with
    ⟨staged, published, root, v', rfl, hstage, hpublish⟩ | ⟨hnot, -⟩
  swap
  · cases hnot
  -- what is known of the staging directory, and of everything else, when it is complete
  obtain ⟨hsame, hsettled⟩ := (holds_confined (yields_stageTree hbegun.plain) Settled.stable
    fun w w' hw h => hw.moves h).at_result
      (fun v v' hv hrel => ⟨hv.1, Settled.stable v v' hv.2 hrel⟩) henv hnew.settled
      (fun l _ => l.uses_true) hstage
  have hfresh : Fresh made.2 v := ⟨hbegun.opened, hnew.guarded, hnew.empty⟩
  have hinputs : ∀ l ∈ staged, l.Uses (Answers (fun _ => True) opened.index) fun _ => True :=
    fun l hl => hlabels l (by simp [hl])
  obtain ⟨files, hcomplete, hbuilding⟩ :=
    (holds_stageTree hv hnames hbatch hfile hbegun.opened).at_result (by
      rintro v v' ⟨files, hcomplete, hv⟩ hrel
      exact ⟨files, hcomplete, Building.stable v v' hv hrel⟩) henv hfresh.building hinputs hstage
  have hstands : Stands R opened c root.staging files
      (Moved opened.index files (files.map Prod.snd)) v' := by
    rw [hsame.1]
    exact ⟨_, hbuilding⟩
  rw [← hsame.1] at hsettled
  have hdrop : Holds (fun _ => True) (fun _ => True) made.2.dropRoot (fun _ _ => True)
      fun _ _ => True :=
    (holds_kept made.2.leaves_dropRoot (fun _ _ _ h => h) fun _ _ _ _ => trivial).conseq
      (fun _ h => h) (fun _ _ _ => trivial) fun _ _ h => h
  have hend := Holds.of_done (.onError holds_publishTree fun _ => hdrop) Stands.stable
    ⟨hstands, hsettled⟩ (fun l _ => l.uses_true) hpublish
  rw [hsame.2, hbegun.target] at hend
  exact ⟨_, _, files, hcomplete, hend⟩

/-- What a run that ends well has opened stands at the destination, if the file has
had one content and no temporary name is that of an entry. -/
theorem stands_of_run (hos : R.os = .unix) (hbatch : 1 ≤ req.batchSize)
    (hrooted : fs.tree.Rooted) (hfs : fs.Clean nextOther)
    (hfound : fs.follow 41 req.container = some (.file (.other c)))
    (hrun : run (interleave World.env) ((execute R req).task, World.start fs nextOther) labels =
      some (.done, w)) (honly : ∀ v ∈ w.versions c, v.content = b) :
    ∃ o, openBytes R b req.password = .ok o ∧
      ((∀ l ∈ labels, l.Uses (Answers (fun _ => True) o.index) fun _ => True) →
        ∃ opened base first files, o = opened.withContent b ∧
          Complete opened.index base first files ∧
          Stands R opened c req.output files (Moved opened.index files (files.map Prod.snd)) w) := by
  have henv : ∀ v a v', World.env v a = some v' → World.sharing.rel v v' := fun _ a _ ha =>
    .single ⟨a, ha⟩
  have hquiet : Yields (quietly (·.Outside .extract) .extract) (Validated R) (openInPool R req) :=
    .bind (kept_context quiet_reading) fun _ _ => yields_quiet_openReading (by decide)
  rw [execute_eq] at hrun
  rcases hquiet.passed hrun with ⟨before, after, opened, u, rfl, hexec, hrest⟩ | ⟨hnot, -⟩
  swap
  · cases hnot
  obtain ⟨hfile, hfinds, hknows⟩ := holds_openInPool.at_result
    (fun v v' hv hrel => ⟨hv.1, reads_found.stable_knows v v' hv.2 hrel⟩) henv
    ⟨.start hrooted hfs, hfound⟩ (fun l _ => l.uses_true) hexec
  have hopens : openBytes R b req.password = .ok (opened.withContent b) := by
    refine hknows b ?_
    rintro _ ⟨v, hv, rfl⟩
    exact honly v (versions_run (leaves_extractOpened hos) hv hrest)
  refine ⟨_, hopens, fun hlabels => ?_⟩
  obtain ⟨base, first, files, hcomplete, hstands⟩ := extractOpened_restores hos
    (hquiet.of_executes hexec) hbatch hfile hfinds.1
    (fun l hl => hlabels l (List.mem_append_right before hl)) hrest
  exact ⟨opened, base, first, files, rfl, hcomplete, hstands⟩

theorem orderedInsert_between {r : α → α → Prop} [DecidableRel r] {a : α} {l l' : List α}
    (h : ∀ b ∈ l, ¬r a b) (h' : ∀ b ∈ l', r a b) :
    (l ++ l').orderedInsert r a = l ++ a :: l' := by
  induction l with
  | nil =>
      cases l' with
      | nil => rfl
      | cons b rest => exact List.orderedInsert_cons_of_le r rest (h' b List.mem_cons_self)
  | cons b rest ih =>
      rw [List.cons_append, List.orderedInsert_of_not_le r _ (h b List.mem_cons_self),
        ih fun c hc => h c (List.mem_cons_of_mem b hc)]
      rfl

/-- The order of the extraction, by a sort that can be evaluated. -/
theorem extractionOrder_eq : extractionOrder ω v =
    (ω.arrange v.entries.values).insertionSort fun a b =>
      a.depth < b.depth ∨ a.depth = b.depth ∧ a.id ≤ b.id := by
  have htrans := StableSort.keys_trans Entry.depth Entry.id
  have htotal := StableSort.keys_total Entry.depth Entry.id
  unfold extractionOrder
  induction ω.arrange v.entries.values with
  | nil => exact List.mergeSort_nil
  | cons e rest ih =>
      obtain ⟨l, l', hwith, hwithout, hlt⟩ := List.mergeSort_cons htrans htotal e rest
      have hsorted := List.pairwise_mergeSort htrans htotal (e :: rest)
      rw [hwith] at hsorted ⊢
      rw [List.insertionSort_cons, ← ih, hwithout, orderedInsert_between]
      · intro b hb hle
        have hnot := hlt b hb
        rw [decide_eq_true hle] at hnot
        cases hnot
      · intro b hb
        have hle := (List.pairwise_cons.mp (List.pairwise_append.mp hsorted).2.1).1 b hb
        exact of_decide_eq_true hle

/-- The container that the sample of `pack` makes. -/
def samplePacked : Bytes :=
  ((run (interleave World.env)
    ((OperationRequest.sampleRequest.execute OperationRequest.sampleReader).task,
      World.start OperationRequest.sampleFs 1) OperationRequest.sampleRun).map fun c =>
        (c.2.fs.inodes (.own 0)).content).getD []

def packedTree : FileTree OsString FsNode := fun p =>
  if p = [] then some .directory
  else if p = [.utf8 "v"] then some (.file (.other 0)) else none

def packedFs : Fs := ⟨packedTree, fun _ => ⟨samplePacked, 0⟩⟩

theorem packedFs_rooted : packedFs.tree.Rooted := by
  intro p node hp hnode
  have hplace : p = [.utf8 "v"] := by
    by_contra hne
    simp only [packedFs, packedTree, if_neg hp, if_neg hne] at hnode
    cases hnode
  subst hplace
  rfl

/-- The container is to be extracted to `x`. -/
def packedRequest : ExtractRequest := ⟨[.utf8 "v"], [.utf8 "x"], "p", 4, some [.utf8 "t"]⟩

def packedLabels : List (Label WorldInput EnvAction) :=
  let one : Pick WorldInput := .here Pack.sampleInput
  OperationRequest.sampleSteps 27 one ++ OperationRequest.sampleSteps 3 (.child 0 one) ++
    OperationRequest.sampleSteps 1 .join ++ OperationRequest.sampleSteps 17 one

theorem packedFs_clean (h : samplePacked.length < 2 ^ 64) : packedFs.Clean 1 := by
  constructor
  case length =>
    intro n
    simp only [packedFs]
    exact h
  intro p ino hp
  refine ⟨0, Nat.one_pos, ?_⟩
  simp only [packedFs, packedTree] at hp
  split at hp
  · cases hp
  · split at hp
    · exact (FsNode.file.inj (Option.some.inj hp)).symm
    · cases hp

end CipherFS.Extract
