import CipherFS.Core.Extract.Restored
import CipherFS.Core.Pack.PackedTree
import CipherFS.Core.ReadOnlyFs.Mounted
import CipherFS.Framework.Revocation

/-!
# What is packed can be mounted and extracted

A run packs a directory that nobody touches meanwhile. A mount of the container
that has come of it shows the tree that was packed; and if another run, perhaps
on another machine, extracts it and ends well, that is the tree at the
destination.
-/

namespace CipherFS

open WorldProg Prog V2 Result Extract ReadOnlyFs

variable {Key : Type} {R : Reader Key} {ω : IterOrder} {walk : List (Result Path)}
  {pack : Pack.PackRequest} {extract : ExtractRequest} {fs fs' : Fs} {next next' c : Nat}
  {source : Path} {u v w w' : World} {o : OpenedContainer (ByteArr 48)}
  {labels labels' : List (Label WorldInput EnvAction)} {p : Path} {x : Object}

/-- By the state `w`, others have made nothing new below `source`, and have changed
no file that was there. -/
structure Fs.Spared (fs : Fs) (source : Path) (w : World) : Prop where
  names : ∀ p, fs.tree (source ++ p) = none → w.others.tree (source ++ p) = none
  contents : ∀ p m, fs.tree (source ++ p) = some (.file (.other m)) →
    w.versions m = [fs.inodes (.other m)]

/-- The walk yields what is below `source`. -/
def Fs.Walked (fs : Fs) (source : Path) (walk : List (Result Path)) : Prop :=
  ∀ p, p ≠ [] → (.ok (source ++ p) ∈ walk ↔ ∃ node, fs.tree (source ++ p) = some node)

/-- No temporary name of the extraction is a name below `source`. -/
def Fs.Avoids (fs : Fs) (source : Path) (i : WorldInput) : Prop :=
  ∀ p node id, fs.tree (source ++ p) = some node →
    p.getLast? ≠ some (SafeRoot.tempName id (fillBytes i 0 8))

/-! ## A source that stays as it is -/

/-- A container that holds a source that nobody has touched holds it whole. -/
theorem Pack.HoldsSource.has_iff (h : Pack.HoldsSource R.crypto o source walk u w)
    (hwalk : fs.Walked source walk) (hnames : ∀ p, u.fs.tree (source ++ p) = fs.tree (source ++ p))
    (hspared : fs.Spared source w) (p : Path) (x : Object) :
    o.Has R.crypto p x ↔ fs.Has (source ++ p) x := by
  have hforth : ∀ x, o.Has R.crypto p x → fs.Has (source ++ p) x := by
    rintro (_ | content) hx
    · show fs.tree (source ++ p) = some .directory
      rw [← hnames]
      exact h.directory p hx
    · obtain ⟨m, hnode, v, hv, v', hv', -, rfl⟩ := h.file p content hx
      rw [hnames] at hnode
      rw [hspared.contents p m hnode] at hv hv'
      obtain rfl := List.mem_singleton.mp hv
      obtain rfl := List.mem_singleton.mp hv'
      exact ⟨_, hnode, List.take_length.symm⟩
  refine ⟨hforth x, fun hx => ?_⟩
  have hnode : ∃ node, fs.tree (source ++ p) = some node := by
    cases x with
    | directory => exact ⟨_, hx⟩
    | file content =>
        obtain ⟨ino, hino, -⟩ := hx
        exact ⟨_, hino⟩
  have hpath : p = [] ∨ .ok (source ++ p) ∈ walk := by
    by_cases hp : p = []
    · exact .inl hp
    · exact .inr ((hwalk p hp).mpr hnode)
  obtain ⟨y, hy⟩ := (h.paths p).mpr hpath
  rwa [(hforth y hy).unique hx] at hy

/-- Until the header is made nothing is changed. -/
theorem Pack.built_prepareInPool :
    Built (confined fun _ => False) (Pack.prepareInPool R walk pack) :=
  (built_context built_sync).bind fun _ => Pack.built_prepare R walk pack

/-- A step that does nothing to what others have made. -/
def SameOthers (w w' : World) : Prop := w'.others = w.others

theorem kept_of_confined {α : Type} {V : α → Prop} {T : Path → Prop} {m : WorldProg α}
    (hm : Yields (confined T) V m) : Yields (keeping SameOthers) V m :=
  hm.relax (fun hf i w r w' hs => (hf i w r w' hs).1.others) (fun _ _ => trivial) fun _ _ => trivial

/-- No step of the part that writes and publishes the container touches what
others have made. -/
theorem Pack.kept_finish {prepared : Pack.Prepared} :
    Built (keeping SameOthers) (Pack.finish R pack prepared) := by
  have hevent : ∀ e, Built (keeping SameOthers) (Prog.event e : WorldProg Unit) := fun _ =>
    kept_onControl fun _ => rfl
  have hstage : ∀ temp, Built (keeping SameOthers)
      (Pack.stageContainer R pack prepared temp) := by
    intro temp
    have hcreate : Built (confined fun _ => True) (perform (Op.createNew temp)) :=
      built_perform (moves_createNew trivial)
    exact kept_of_confined ((built_context hcreate).bind fun output =>
      Pack.built_fillContainer pack prepared temp output)
  have hpublish : ∀ temp, Built (keeping SameOthers) (Pack.publishContainer pack temp) := by
    intro temp
    have hrename : Built (keeping SameOthers) (perform (Op.renameNoReplace temp pack.output)) :=
      kept_perform (fun i w _ => (leaving_renameNoReplace temp pack.output i w).others)
        fun _ _ _ _ _ => trivial
    have hsync : Built (confined fun _ => False) (Pack.syncParent pack.output.dropLast) :=
      (built_openFile _).bind fun _ => built_sync
    unfold Pack.publishContainer
    refine (hevent _).bind fun _ => (hevent _).bind fun _ => ?_
    refine Built.bind (kept_context hrename) fun _ => ?_
    refine Built.bind (Yields.attempt (kept_of_confined hsync)).built fun synced => ?_
    cases synced with
    | ok _ => exact hevent _
    | error e => exact (hevent _).bind fun _ => hevent _
  have hdrop : ∀ temp, Built (keeping SameOthers) (Pack.dropTemp temp) := fun temp =>
    .bind (kept_call fun i w => (Pack.moves_guardRemoval i w).others) fun _ => .pure _
  unfold Pack.finish
  refine Built.bind (kept_of_confined (Pack.built_chooseTemporaryPath (T := fun _ => False) pack)) ?_
  exact fun temp => .onError ((hstage temp).bind fun _ => hpublish temp) (hdrop temp)

theorem Pack.kept_execute : Built (keeping SameOthers) (Pack.execute R walk pack) := by
  rw [Pack.execute_eq]
  exact Built.bind (kept_of_confined Pack.built_prepareInPool) fun _ => Pack.kept_finish

theorem Prog.Built.sameOthers {m : WorldProg Unit} (hm : Built (keeping SameOthers) m) :
    m.task.Quiet SameOthers :=
  hm.quiet (fun hf => hf) (fun _ _ => trivial) fun _ => trivial

theorem World.env_others {a : EnvAction} (h : w.env a = some w') {p : Path}
    (hp : w.others.tree p ≠ none) : w'.others.tree p ≠ none := by
  rcases (World.interferes_of_env h).tree p with ⟨-, hsame⟩ | ⟨-, -, node, -, hnode, -⟩
  · rwa [hsame]
  · rw [hnode]
    exact Option.some_ne_none node

/-- **What the scan has found is what was there**, when nothing new has come by the
end of the run. -/
theorem Fs.Spared.tree_eq {prepared : Pack.Prepared}
    {before after : List (Label WorldInput EnvAction)} (hw : fs.Spared source w)
    (hrooted : fs.tree.Rooted)
    (hexec : (Pack.prepareInPool R walk pack).Executes World.env (World.start fs next) before
      (.ok prepared) u)
    (hrest : run (interleave World.env) ((Pack.finish R pack prepared).task, u) after =
      some (.done, w)) (p : Path) : u.fs.tree (source ++ p) = fs.tree (source ++ p) := by
  have henv : ∀ v a v', World.env v a = some v' → World.sharing.rel v v' := fun _ a _ ha =>
    .single ⟨a, ha⟩
  have hidle : Idle u := by
    have hholds : Holds (fun _ => True) Idle (Pack.prepareInPool R walk pack) (fun _ => Idle)
        fun _ _ => True :=
      (holds_confined Pack.built_prepareInPool Idle.stable fun _ _ => Idle.moves).conseq
        (fun _ hw => hw) (fun _ _ hw => hw.2) fun _ _ _ => trivial
    exact hholds.at_result Idle.stable henv (Idle.start hrooted next) (fun l _ => l.uses_true) hexec
  cases hnode : fs.tree (source ++ p) with
  | none =>
      -- a name that had come in between would still be there
      by_contra hne
      rw [hidle.tree] at hne
      refine Pack.kept_finish.sameOthers.run (I := fun v => v.others.tree (source ++ p) ≠ none)
        (fun _ => rfl) hne ?_ ?_ hrest (hw.names p hnode)
      · intro v v' hsame hv hnone
        exact hv ((congrArg (·.tree (source ++ p)) hsame).symm.trans hnone)
      · exact fun v a v' _ ha => World.env_others ha
  | some node =>
      have hstable : World.sharing.Stable fun v => v.fs.tree (source ++ p) = some node :=
        World.stable_env fun _ _ _ h hv => World.env_keeps h hv
      have hholds : Holds (fun _ => True) (fun v => v.fs.tree (source ++ p) = some node)
          (Pack.prepareInPool R walk pack) (fun _ v => v.fs.tree (source ++ p) = some node)
          fun _ _ => True :=
        (holds_confined Pack.built_prepareInPool hstable fun _ _ hv h => (h.tree _ id).trans hv).conseq
          (fun _ hv => hv) (fun _ _ hv => hv.2) fun _ _ _ => trivial
      exact hholds.at_result hstable henv hnode (fun l _ => l.uses_true) hexec

/-- The container that is published holds the directory that was packed. -/
theorem Pack.packed_spared (hC : R.crypto.Correct) (hK : R.codec.Lawful) (hB : R.codec.Bounded)
    (hfs : fs.Clean next) (hrooted : fs.tree.Rooted) (hnodup : walk.Nodup)
    (hwalk : fs.Walked pack.source walk)
    (hpack : run (interleave World.env) ((Pack.execute R walk pack).task, World.start fs next)
      labels = some (.done, w)) (hspared : fs.Spared pack.source w) :
    ∃ scan u n o, Pack.Packed R pack.password scan pack.output n o w ∧
      Pack.HoldsSource R.crypto o pack.source walk u w ∧
      ∀ p x, o.Has R.crypto p x ↔ fs.Has (pack.source ++ p) x := by
  obtain ⟨before, after, prepared, u, n, o, hsplit, hexec, hpacked, -, hholds⟩ :=
    Pack.packed_of_run hC hK hB hnodup hfs hpack
  have hfinish : run (interleave World.env) ((Pack.finish R pack prepared).task, u) after =
      some (.done, w) := by
    have hstart := hexec (fun a => (Pack.finish R pack a).task) .fail after
    rw [← hsplit] at hstart
    exact hstart.symm.trans hpack
  exact ⟨prepared.scan, u, n, o, hpacked, hholds,
    hholds.has_iff hwalk (hspared.tree_eq hrooted hexec hfinish) hspared⟩

/-! ## Names -/

/-- The names of the entries are names of the source. -/
theorem answers_of_avoids {i : WorldInput} (hv : Extractable o.index)
    (hroot : ∀ e ∈ o.index.entries.values, e.id = 1 → e.name = "")
    (hsource : ∀ e ∈ o.index.entries.values,
      ∃ node, fs.tree (source ++ entryPath o.index e) = some node)
    (hi : fs.Avoids source i) : Answers (fun _ => True) o.index i := by
  refine ⟨fun _ _ => trivial, ?_⟩
  intro e _ e' he' hname
  by_cases hid : e'.id = 1
  · rw [hroot e' he' hid, SafeRoot.tempName] at hname
    have hlength := congrArg String.length (OsString.utf8.inj hname)
    simp [String.length_append] at hlength
  · obtain ⟨node, hnode⟩ := hsource e' he'
    obtain ⟨p, -, -, -, -, hpath⟩ := hv.child e' he' hid
    refine hi _ node e.id hnode ?_
    rw [hpath, hname, List.getLast?_concat]

theorem Pick.uses_mono {ι : Type} {A B : ι → Prop} (h : ∀ i, A i → B i) {p : Pick ι}
    (hp : p.Uses A) : p.Uses B := by
  induction p with
  | here i => exact h i hp
  | child _ _ ih => exact ih hp
  | join => trivial
  | abort _ => trivial

/-! ## Both runs -/

namespace OperationRequest

theorem sampleFs_rooted : sampleFs.tree.Rooted := by
  intro p node hp hnode
  simp only [sampleFs, sampleTree] at hnode ⊢
  split at hnode
  · rename_i hplace
    obtain rfl := hplace.resolve_left hp
    rfl
  · split at hnode
    · rename_i hplace
      subst hplace
      rfl
    · cases hnode

/-- What is below `s`. -/
theorem sampleTree_below {p : Path} : (∃ node, sampleTree ([.utf8 "s"] ++ p) = some node) ↔
    p = [] ∨ p = [.utf8 "a"] := by
  constructor
  · rintro ⟨node, hnode⟩
    simp only [sampleTree, List.singleton_append] at hnode
    split at hnode
    · rename_i hplace
      rcases hplace with hplace | hplace
      · cases hplace
      · exact .inl (List.cons.inj hplace).2
    · split at hnode
      · rename_i hplace
        exact .inr (List.cons.inj hplace).2
      · cases hnode
  · rintro (rfl | rfl)
    · exact ⟨.directory, rfl⟩
    · exact ⟨.file (.other 0), rfl⟩

theorem sampleFs_walked : sampleFs.Walked [.utf8 "s"] Pack.sampleWalk := by
  intro p hp
  rw [show sampleFs.tree = sampleTree from rfl, sampleTree_below, or_iff_right hp]
  simp [Pack.sampleWalk, hp]

/-- Temporary names are longer than the names below `s`. -/
theorem sampleFs_avoids (i : WorldInput) : sampleFs.Avoids [.utf8 "s"] i := by
  intro p node id hnode hname
  rcases sampleTree_below.mp ⟨node, hnode⟩ with rfl | rfl
  · cases hname
  · rw [SafeRoot.tempName] at hname
    have hlength := congrArg String.length (OsString.utf8.inj (Option.some.inj hname))
    simp only [String.length_append, show "a".length = 1 from rfl,
      show ".cipherfs-".length = 10 from rfl] at hlength
    omega

theorem sampleRun_tasks (a : EnvAction) : .env a ∉ sampleRun := by
  simp [sampleRun, sampleSteps]

/-- The run packs what is below `s`. -/
theorem sampleRun_packed : ∃ w,
    run (interleave World.env) ((sampleRequest.execute sampleReader).task, World.start sampleFs 1)
      sampleRun = some (.done, w) ∧
    w.fs.tree [.utf8 "o"] = some (.file (.own 0)) ∧ sampleFs.Spared [.utf8 "s"] w := by
  have hpacked : (run (interleave World.env)
      ((sampleRequest.execute sampleReader).task, World.start sampleFs 1) sampleRun).map (fun c =>
        (c.1.isDone, c.2.versions 0, c.2.fs.tree [.utf8 "o"])) =
          some (true, [⟨[7], 0⟩], some (.file (.own 0))) := by
    decide +kernel
  obtain ⟨⟨t, w⟩, hrun, hc⟩ := Option.map_eq_some_iff.mp hpacked
  obtain ⟨hdone, hc⟩ := Prod.mk.inj hc
  obtain ⟨hversions, hplace⟩ := Prod.mk.inj hc
  obtain rfl := Task.isDone_iff.mp hdone
  have hkept : Built (keeping SameOthers) (sampleRequest.execute sampleReader) := Pack.kept_execute
  have hothers : w.others = sampleFs :=
    hkept.sameOthers.run (I := fun v => v.others = sampleFs) (fun _ => rfl) rfl
      (fun v v' hsame hv => hsame.trans hv) (fun v a v' ha => absurd ha (sampleRun_tasks a)) hrun
  refine ⟨w, hrun, hplace, fun p hp => by rwa [hothers], fun p m hm => ?_⟩
  rcases sampleTree_below.mp ⟨_, hm⟩ with rfl | rfl
  · cases hm
  · obtain rfl := Ino.other.inj (FsNode.file.inj (Option.some.inj hm))
    exact hversions

end OperationRequest

end CipherFS
