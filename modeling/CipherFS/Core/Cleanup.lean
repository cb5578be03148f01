import CipherFS.Core.Extract.Staging
import CipherFS.Core.Publication

/-!
# Cleanup after a failure

A run that fails leaves the file system as it would be without it: the guards of
the temporary container and of the staging directory remove what the run has
made, and nothing else. The guard of the container is armed before the file is
made, and that of the staging directory after it has been opened, so what others
do in between, and a failing `open_dir`, are recorded as disturbances.
-/

namespace CipherFS

open WorldProg Prog V2
open Extract (Holds)

variable {α Key : Type} {T : Path → Prop} {P : World → Prop} {Q : α → World → Prop}
  {E : Error → World → Prop} {w w' : World} {temp : Path} {root : SafeRoot}

/-- Every object is in a directory. -/
def FileTree.Rooted (t : FileTree OsString FsNode) : Prop :=
  ∀ p node, p ≠ [] → t p = some node → t p.dropLast = some .directory

/-- Nothing is below a path where nothing is. -/
theorem FileTree.Rooted.below {t : FileTree OsString FsNode} (h : t.Rooted) {p : Path}
    (hp : t p = none) (q : Path) : t (p ++ q) = none := by
  induction q using List.reverseRecOn with
  | nil => rwa [List.append_nil]
  | append_singleton q a ih =>
      cases hnode : t (p ++ (q ++ [a])) with
      | none => rfl
      | some node =>
          have hparent := h _ node (by simp) hnode
          rw [← List.append_assoc, List.dropLast_concat, ih] at hparent
          cases hparent

/-! ## What a run keeps -/

/-- The run has changed nothing outside `T`, and has armed no guard there. -/
structure Apart (T : Path → Prop) (w : World) : Prop where
  tree : FileTree.SameOutside T w.fs.tree w.others.tree
  foreign : .wiped ∉ w.disturbances → ∀ n, w.fs.inodes (.other n) = w.others.inodes (.other n)
  guards : ∀ p ∈ w.guards, T p

theorem Apart.moves (hw : Apart T w) (h : Moves T w w') : Apart T w' where
  tree := h.others ▸ h.tree.trans hw.tree
  foreign hn n := by
    rw [h.foreign hn n, h.others]
    exact hw.foreign (fun hm => hn (h.disturbances hm)) n
  guards p hp := (h.guards p hp).elim (hw.guards p) id

theorem Apart.interferes (hw : Apart T w) (h : Interferes w w') : Apart T w' where
  tree q hq := by
    rcases h.tree q with ⟨hfs, hothers⟩ | ⟨-, -, node, hfs, hothers, -⟩
    · rw [hfs, hothers, hw.tree q hq]
    · rw [hfs, hothers]
  foreign hn n := h.foreign n (hw.foreign (fun hm => hn (h.disturbances hm)) n)
  guards p hp := hw.guards p (h.memory.1 ▸ hp)

theorem Apart.stable : World.sharing.Stable (Apart T) :=
  World.stable_sharing fun _ _ hi hw => hw.interferes hi

/-- The run has made nothing. -/
structure Idle (w : World) : Prop where
  apart : Apart (fun _ => False) w
  rooted : w.others.tree.Rooted

namespace Idle

theorem start {fs : Fs} (hfs : fs.tree.Rooted) (nextOther : Nat) :
    Idle (World.start fs nextOther) where
  apart := { tree := fun _ _ => rfl, foreign := fun _ _ => rfl, guards := nofun }
  rooted := hfs

theorem tree (hw : Idle w) : w.fs.tree = w.others.tree := funext fun q => hw.apart.tree q id

theorem moves (hw : Idle w) (h : Moves (fun _ => False) w w') : Idle w' :=
  ⟨hw.apart.moves h, h.others ▸ hw.rooted⟩

theorem failed (hw : Idle w) (fs : List Error) : Idle { w with failures := fs } :=
  ⟨⟨hw.apart.tree, hw.apart.foreign, hw.apart.guards⟩, hw.rooted⟩

theorem interferes (hw : Idle w) (hi : Interferes w w') : Idle w' := by
  refine ⟨hw.apart.interferes hi, fun p node hp hnode => ?_⟩
  have hparent : w.others.tree p.dropLast = some .directory := by
    rcases hi.tree p with ⟨-, hothers⟩ | ⟨-, hparent, -⟩
    · exact hw.rooted p node hp (hothers.symm.trans hnode)
    · exact hparent
  rcases hi.tree p.dropLast with ⟨-, hothers⟩ | ⟨hnone, -⟩
  · rw [hothers, hparent]
  · rw [hw.tree, hparent] at hnone
    cases hnone

theorem stable : World.sharing.Stable Idle :=
  World.stable_sharing fun _ _ hi hw => hw.interferes hi

end Idle

/-- Nothing is left of the run, and nothing of anybody else is gone or changed,
unless a disturbance has come upon it. A duress password only changes files. -/
structure Cleaned (w : World) : Prop where
  tree : (∀ d ∈ w.disturbances, d = .wiped) → w.fs.tree = w.others.tree
  foreign : .wiped ∉ w.disturbances → ∀ n, w.fs.inodes (.other n) = w.others.inodes (.other n)

theorem Cleaned.stable : World.sharing.Stable Cleaned := by
  apply World.stable_sharing
  intro w w' hi hw
  refine ⟨fun hd => ?_, fun hn n =>
    hi.foreign n (hw.foreign (fun hm => hn (hi.disturbances hm)) n)⟩
  have hsame := hw.tree fun d hm => hd d (hi.disturbances hm)
  ext1 q
  rcases hi.tree q with ⟨hfs, hothers⟩ | ⟨-, -, node, hfs, hothers, -⟩
  · rw [hfs, hothers, hsame]
  · rw [hfs, hothers]

theorem Idle.cleaned (hw : Idle w) : Cleaned w := ⟨fun _ => hw.tree, hw.apart.foreign⟩

/-! ## Triples -/

/-- What a program keeps that is confined to some paths. -/
theorem holds_confined {V : α → Prop} {m : WorldProg α} (hm : Yields (confined T) V m)
    (hstable : World.sharing.Stable P) (hP : ∀ w w', P w → Moves T w w' → P w') :
    Holds (fun _ => True) P m (fun a w => V a ∧ P w) fun _ => P := by
  let M : Rely World :=
    { rel := fun w w' => P w → P w'
      refl := fun _ h => h
      trans := fun h h' hw => h' (h hw) }
  have htriple : Triple (fun _ : WorldInput => True) World.sharing M.rel P m
      (fun a w => V a ∧ P w) fun _ w => True ∧ P w := by
    refine hm.triple (E := fun _ _ => True) (fun w w' h hw => hstable w w' hw h)
      (fun w w' hw h => h hw) (fun _ _ _ _ _ => trivial) ?_ (fun _ _ _ _ _ => trivial)
      fun _ _ _ _ => trivial
    intro γ f hf i w r w' _ _ hstep
    exact ⟨fun hw => hP w w' hw (hf i w r w' hstep).1, fun _ _ => trivial⟩
  exact (htriple.widen fun _ _ _ => trivial).conseq (fun _ h => h) (fun _ _ h => h) fun _ _ h => h.2

/-- A call that is answered as `op` answers. -/
theorem holds_perform {op : Op α} (hP : World.sharing.Stable P)
    (herror : ∀ i w e w', P w → op i w = (.error e, w') →
      E e { w' with failures := w'.failures ++ [e] })
    (hok : ∀ i w a w', P w → op i w = (.ok a, w') → Q a w') :
    Holds (fun _ => True) P (perform op) Q E := by
  refine .call hP fun i w _ hw => ⟨trivial, ?_⟩
  rcases hop : op i w with ⟨e | a, w'⟩
  · exact herror i w e w' hw hop
  · exact hok i w a w' hw hop

theorem holds_require {r : Result α} (hQ : ∀ a w, r = .ok a → P w → Q a w)
    (hE : ∀ e w, P w → E e { w with failures := w.failures ++ [e] })
    (hP : World.sharing.Stable P) : Holds (fun _ => True) P (require r) Q E := by
  cases r with
  | ok a => exact .pure fun w hw => hQ a w rfl hw
  | error e =>
      show Holds _ P (perform fun _ w => (.error e, w)) Q E
      refine holds_perform hP (fun i w e' w' hw hop => ?_) fun i w a w' _ hop => ?_
      · obtain ⟨he, rfl⟩ := Prod.mk.inj hop
        obtain rfl := Except.error.inj he
        exact hE e w hw
      · cases (Prod.mk.inj hop).1

/-- After the commit nothing is promised, and nothing raises an error. -/
theorem holds_event {e : OperationEvent} :
    Holds (fun _ => True) (fun _ => True) (Prog.event e : WorldProg Unit) (fun _ _ => True) E :=
  .modify (fun _ _ _ _ => trivial) (fun _ _ => trivial) fun _ _ => trivial

theorem holds_attempt {m : WorldProg α} (hm : Built (confined T) m) :
    Holds (fun _ => True) (fun _ => True) m.attempt (fun _ _ => True) E := by
  refine .attempt ((holds_confined hm (P := fun _ => True) ?_ ?_).conseq (fun _ h => h) ?_ ?_)
  · exact fun _ _ _ _ => trivial
  · exact fun _ _ _ _ => trivial
  · exact fun _ _ _ => trivial
  · exact fun _ _ _ => trivial

/-! ## Packing -/

namespace Pack

/-- The temporary path is chosen: nobody else has put a file there, unless that
has disturbed the run. -/
structure Reserved (temp : Path) (w : World) : Prop where
  idle : Idle w
  reserved : w.reserved = some temp
  free : .occupied ∈ w.disturbances ∨ w.fs.tree temp = none ∨ w.fs.tree temp = some .directory

theorem Reserved.stable : World.sharing.Stable (Reserved temp) := by
  apply World.stable_sharing
  intro w w' hi hw
  refine ⟨hw.idle.interferes hi, hi.memory.2.trans hw.reserved, ?_⟩
  rcases hw.free with hd | hfree
  · exact .inl (hi.disturbances hd)
  rcases hi.tree temp with ⟨hfs, -⟩ | ⟨-, -, node, hfs, -, hoccupied⟩
  · exact .inr (hfs ▸ hfree)
  · by_cases hnode : node = .directory
    · exact .inr (.inr (hnode ▸ hfs))
    · exact .inl (hoccupied hw.reserved hnode)

/-- The state in which a chosen path is looked at by the rest of the choice. -/
theorem holds_reserve (lookup : Fs → Option FsNode) :
    Holds (fun _ => True) Idle (reserve temp lookup)
      (fun free w => Idle w ∧ (free = true → Reserved temp w)) E := by
  refine .call Idle.stable fun i w _ hw => ⟨trivial, ?_⟩
  split
  · have hidle : Idle { w with
        reserved := some temp
        disturbances := if w.fs.tree temp ≠ none ∧ w.fs.tree temp ≠ some .directory then
            .occupied :: w.disturbances
          else w.disturbances } := by
      refine ⟨⟨hw.apart.tree, fun hn => hw.apart.foreign fun hm => hn ?_, hw.apart.guards⟩, hw.rooted⟩
      dsimp only
      split
      · exact List.mem_cons_of_mem _ hm
      · exact hm
    refine ⟨hidle, fun _ => ⟨hidle, rfl, ?_⟩⟩
    dsimp only
    split
    · exact .inl List.mem_cons_self
    · rename_i hfree
      rw [not_and_or, not_not, not_not] at hfree
      exact .inr hfree
  · exact ⟨hw, nofun⟩

theorem holds_temporaryPath (output : Path) : ∀ n,
    Holds (fun _ => True) Idle (temporaryPath output n) Reserved fun _ => Idle
  | 0 => holds_require (fun _ _ h => nomatch h) (fun _ _ hw => Idle.failed hw _) Idle.stable
  | n + 1 => by
      unfold temporaryPath
      refine .bind (holds_confined (built_random 8) Idle.stable fun _ _ => Idle.moves) fun r => ?_
      refine .assume fun _ => .bind (holds_reserve _) fun free => ?_
      cases free with
      | true => exact .pure fun w hw => hw.2 rfl
      | false => exact (holds_temporaryPath output n).pre fun w hw => hw.1

/-- **The temporary path is taken with its guard.** -/
theorem holds_chooseTemporaryPath (req : PackRequest) :
    Holds (fun _ => True) Idle (chooseTemporaryPath req) Reserved fun _ => Idle := by
  unfold chooseTemporaryPath
  split
  · rename_i requested _
    have hstill : ∀ r : Result Unit, Holds (fun _ => True) Idle (require r) (fun _ => Idle)
        fun _ => Idle := fun r =>
      holds_require (fun _ _ _ hw => hw) (fun _ _ hw => Idle.failed hw _) Idle.stable
    unfold validateRequestedTemporaryPath
    refine .bind (hstill _) fun _ => .bind (hstill _) fun _ => .bind (hstill _) fun _ => ?_
    refine .bind (holds_reserve _) fun free => ?_
    cases free with
    | true => exact .pure fun w hw => hw.2 rfl
    | false =>
        refine .bind (Q := fun _ _ => False) ?_ fun _ => .unreachable fun _ h => h
        refine (holds_require ?_ (fun _ _ hw => Idle.failed hw _) Idle.stable).pre fun w hw => hw.1
        exact fun _ _ h => nomatch h
  · exact holds_temporaryPath _ 32

/-- The temporary file is this run's. -/
structure Owned (temp : Path) (w : World) : Prop where
  apart : Apart (· = temp) w
  own : ∃ n, w.fs.tree temp = some (.file (.own n))
  free : w.others.tree temp = none

theorem Owned.stable : World.sharing.Stable (Owned temp) := by
  apply World.stable_sharing
  intro w w' hi hw
  obtain ⟨n, hn⟩ := hw.own
  rcases hi.tree temp with ⟨hfs, hothers⟩ | ⟨hnone, -⟩
  · exact ⟨hw.apart.interferes hi, ⟨n, hfs.trans hn⟩, hothers.trans hw.free⟩
  · rw [hnone] at hn
    cases hn

theorem Owned.moves (hw : Owned temp w) (h : Moves (fun _ => False) w w') : Owned temp w' where
  apart := hw.apart.moves (h.mono fun _ => False.elim)
  own := by
    obtain ⟨n, hn⟩ := hw.own
    exact ⟨n, (h.tree temp id).trans hn⟩
  free := h.others ▸ hw.free

theorem holds_createNew :
    Holds (fun _ => True) (Reserved temp) (perform (Op.createNew temp)) (fun _ => Owned temp)
      fun _ => Reserved temp := by
  refine holds_perform Reserved.stable (fun i w e w' hw hop => ?_) fun i w n w' hw hop => ?_
  · obtain rfl := Route.createNew_error hop
    exact ⟨hw.idle.failed _, hw.reserved, hw.free⟩
  · have hmoves := moves_createNew (T := (· = temp)) rfl i w
    rw [hop] at hmoves
    have hf := Route.io_ok hop
    split at hf
    · cases (Prod.mk.inj hf).1
    · rename_i hv
      obtain rfl := (Prod.mk.inj hf).2
      refine ⟨Apart.moves ?_ hmoves, ⟨w.nextOwn, FileTree.put_self⟩, ?_⟩
      · exact ⟨fun q _ => hw.idle.apart.tree q id, hw.idle.apart.foreign,
          fun p hp => (hw.idle.apart.guards p hp).elim⟩
      · rw [← hw.idle.tree]
        exact (vacant_eq_ok.mp hv).1

/-- What there is to remove. -/
def Armed (temp : Path) (w : World) : Prop := Reserved temp w ∨ Owned temp w

theorem Armed.stable : World.sharing.Stable (Armed temp) := fun w w' h hrel =>
  h.imp (fun hr => Reserved.stable w w' hr hrel) fun ho => Owned.stable w w' ho hrel

theorem holds_stageContainer {R : Reader Key} {req : PackRequest} {prepared : Prepared} :
    Holds (fun _ => True) (Reserved temp) (stageContainer R req prepared temp)
      (fun _ => Owned temp) fun _ => Armed temp := by
  unfold stageContainer
  refine .bind (Q := fun _ => Owned temp) ?_ fun output => ?_
  · exact .mapError (holds_createNew.conseq (fun _ hw => hw) (fun _ _ hw => hw) fun _ _ => .inl)
  · have hstable : World.sharing.Stable (Owned temp) := Owned.stable
    exact (holds_confined (built_fillContainer req prepared temp output) hstable
      fun _ _ => Owned.moves).conseq (fun _ hw => hw) (fun _ _ hw => hw.2) fun _ _ => .inr

theorem holds_publishContainer {req : PackRequest} :
    Holds (fun _ => True) (Owned temp) (publishContainer req temp) (fun _ _ => True)
      fun _ => Owned temp := by
  have hevent : ∀ e : OperationEvent, Holds (fun _ => True) (Owned temp)
      (Prog.event e : WorldProg Unit) (fun _ => Owned temp) fun _ => Owned temp := fun e =>
    .modify Owned.stable (fun _ _ => trivial) fun w hw =>
      ⟨⟨hw.apart.tree, hw.apart.foreign, hw.apart.guards⟩, hw.own, hw.free⟩
  unfold publishContainer
  refine .bind (hevent _) fun _ => .bind (hevent _) fun _ => ?_
  refine .bind (Q := fun _ _ => True) (.mapError (holds_perform Owned.stable ?_ ?_)) fun _ => ?_
  · intro i w e w' hw hop
    obtain rfl := Route.renameNoReplace_error hop
    exact ⟨⟨hw.apart.tree, hw.apart.foreign, hw.apart.guards⟩, hw.own, hw.free⟩
  · exact fun _ _ _ _ _ _ => trivial
  · have hsync : Built (confined fun _ => False) (syncParent req.output.dropLast) :=
      (built_openFile _).bind fun _ => built_sync
    refine (holds_attempt hsync).bind fun synced => ?_
    cases synced with
    | ok _ => exact holds_event
    | error e => exact holds_event.bind fun _ => holds_event

/-- The only call of the guard. -/
def guardRemoval (temp : Path) : Op Unit := fun i w =>
  match w.fs.tree temp with
  | some (.file (.own _)) => Op.orDisturbed .notRemoved (Op.removeFile temp) i w
  | _ => Op.removeFile temp i w

theorem moves_guardRemoval (i : WorldInput) (w : World) :
    Moves (· = temp) w (guardRemoval temp i w).2 := by
  unfold guardRemoval
  split
  · exact moves_orDisturbed (moves_removeFile (T := (· = temp)) rfl) i w
  · exact moves_removeFile (T := (· = temp)) rfl i w

/-- No file is removed where none is. -/
theorem guardRemoval_free (h : w.fs.tree temp = none ∨ w.fs.tree temp = some .directory)
    (i : WorldInput) : (guardRemoval temp i w).2 = w := by
  have hremove : (Op.removeFile temp i w).2 = w := by
    unfold Op.removeFile Op.io
    dsimp only
    split
    · rfl
    · rcases h with h | h
      · rw [h]
      · rw [h]
  unfold guardRemoval
  rcases h with h | h
  · rw [h]
    exact hremove
  · rw [h]
    exact hremove

/-- The file of this run is removed, or the run disturbed. -/
theorem guardRemoval_own {n : Nat} (h : w.fs.tree temp = some (.file (.own n)))
    (i : WorldInput) : .notRemoved ∈ (guardRemoval temp i w).2.disturbances ∨
      (guardRemoval temp i w).2.fs.tree temp = none := by
  unfold guardRemoval
  rw [h]
  show .notRemoved ∈ (Op.orDisturbed .notRemoved (Op.removeFile temp) i w).2.disturbances ∨
    (Op.orDisturbed .notRemoved (Op.removeFile temp) i w).2.fs.tree temp = none
  unfold Op.orDisturbed Op.removeFile Op.io
  cases hfault : i.fault with
  | some text => exact .inl List.mem_cons_self
  | none =>
      dsimp only
      rw [h]
      exact .inr FileTree.remove_self

/-- **The guard removes the file of this run**, and a file of somebody else only
if that has come before this run has made its own. -/
theorem cleaned_guardRemoval (hw : Armed temp w) (i : WorldInput) :
    Cleaned (guardRemoval temp i w).2 := by
  have hapart : Apart (· = temp) (guardRemoval temp i w).2 := by
    refine Apart.moves ?_ (moves_guardRemoval i w)
    rcases hw with hw | hw
    · exact ⟨fun q _ => hw.idle.apart.tree q id, hw.idle.apart.foreign,
        fun p hp => (hw.idle.apart.guards p hp).elim⟩
    · exact hw.apart
  refine ⟨fun hd => ?_, hapart.foreign⟩
  suffices hat : (guardRemoval temp i w).2.fs.tree temp = (guardRemoval temp i w).2.others.tree temp by
    ext1 q
    by_cases hq : q = temp
    · rw [hq, hat]
    · exact hapart.tree q hq
  rw [(moves_guardRemoval i w).others]
  rcases hw with hw | hw
  · have hfree : w.fs.tree temp = none ∨ w.fs.tree temp = some .directory := by
      refine hw.free.resolve_left fun hm => ?_
      cases hd _ ((moves_guardRemoval i w).disturbances hm)
    rw [guardRemoval_free hfree, hw.idle.tree]
  · obtain ⟨n, hn⟩ := hw.own
    rw [hw.free]
    refine (guardRemoval_own hn i).resolve_left fun hm => ?_
    cases hd _ hm

theorem holds_dropTemp :
    Holds (fun _ => True) (Armed temp) (dropTemp temp) (fun _ => Cleaned) E := by
  unfold dropTemp
  refine .bind (Q := fun _ => Cleaned) (.call Armed.stable fun i w _ hw => ⟨trivial, ?_⟩) fun _ =>
    .pure fun _ h => h
  exact cleaned_guardRemoval hw i

/-- **A failed `pack` has cleaned up.** -/
theorem holds_execute {R : Reader Key} {walk : List (Result Path)} {req : PackRequest} :
    Holds (fun _ => True) Idle (execute R walk req) (fun _ _ => True) fun _ => Cleaned := by
  have hbefore : ∀ {β : Type} {V : β → Prop} {m : WorldProg β},
      Yields (confined fun _ => False) V m →
        Holds (fun _ => True) Idle m (fun _ => Idle) fun _ => Cleaned := fun hm =>
    (holds_confined hm Idle.stable fun _ _ => Idle.moves).conseq (fun _ h => h)
      (fun _ _ h => h.2) fun _ _ => Idle.cleaned
  unfold execute installPool packInner
  refine .bind (hbefore (built_context built_sync)) fun _ => ?_
  refine .bind (hbefore (built_prepare R walk req)) fun prepared => ?_
  refine .bind ((holds_chooseTemporaryPath req).conseq (fun _ h => h) (fun _ _ h => h)
    fun _ _ => Idle.cleaned) fun temp => ?_
  have hbody : Holds (fun _ => True) (Reserved temp) (do
      stageContainer R req prepared temp
      publishContainer req temp) (fun _ _ => True) fun _ => Armed temp := by
    refine holds_stageContainer.bind fun _ => ?_
    exact holds_publishContainer.conseq (fun _ h => h) (fun _ _ h => h) fun _ _ => .inr
  exact .onError hbody fun _ => holds_dropTemp

end Pack

/-! ## Extraction -/

namespace Extract

/-- The staging directory is this run's. -/
structure Staging (root : SafeRoot) (w : World) : Prop where
  apart : Apart root.Below w
  directory : w.fs.tree root.staging = some .directory
  alone : ∀ q, root.Below q → w.others.tree q = none

theorem Staging.stable : World.sharing.Stable (Staging root) := by
  apply World.stable_sharing
  intro w w' hi hw
  have hkept := kept_below hi hw.directory hw.alone
  refine ⟨hw.apart.interferes hi, ?_, fun q hq => (hkept q hq).2.trans (hw.alone q hq)⟩
  exact (hkept _ (List.prefix_refl _)).1.trans hw.directory

theorem Staging.moves (hw : Staging root w) (h : Moves root.Below w w') : Staging root w' where
  apart := hw.apart.moves h
  directory := h.directories _ hw.directory
  alone q hq := h.others ▸ hw.alone q hq

theorem Staging.same {root' : SafeRoot} (hw : Staging root w) (h : root.Same root') :
    Staging root' w := by
  have hbelow : root'.Below = root.Below := by
    ext1 p
    rw [SafeRoot.Below, SafeRoot.Below, h.1]
  exact ⟨hbelow ▸ hw.apart, h.1 ▸ hw.directory, hbelow ▸ hw.alone⟩

/-- The directory is made, and opened unless that disturbs the run. -/
theorem cleans_make :
    Holds (fun _ => True) Idle root.make (fun root' w => root.Same root' ∧ Staging root w)
      fun _ => Cleaned := by
  have hcreate : Holds (fun _ => True) Idle (perform (Op.createDir root.staging))
      (fun _ => Staging root) fun _ => Cleaned := by
    refine holds_perform Idle.stable (fun i w e w' hw hop => ?_) fun i w _ w' hw hop => ?_
    · obtain rfl := Route.createDir_error hop
      exact (hw.failed _).cleaned
    · have hmoves := moves_createDir (List.prefix_refl root.staging : root.Below root.staging) i w
      rw [hop] at hmoves
      have hf := Route.io_ok hop
      split at hf
      · cases (Prod.mk.inj hf).1
      · rename_i hv
        obtain rfl := (Prod.mk.inj hf).2
        refine ⟨Apart.moves ?_ hmoves, FileTree.put_self, ?_⟩
        · exact ⟨fun q _ => hw.apart.tree q id, hw.apart.foreign,
            fun p hp => (hw.apart.guards p hp).elim⟩
        · rintro q ⟨r, rfl⟩
          refine hw.rooted.below ?_ r
          rw [← hw.tree]
          exact (vacant_eq_ok.mp hv).1
  have hopen : Holds (fun _ => True) (Staging root)
      (perform (Op.orDisturbed .notOpened (Op.openDirectory root.staging)))
      (fun _ => Staging root) fun _ => Cleaned := by
    have hcases : ∀ (i : WorldInput) (w : World), Staging root w →
        (Op.orDisturbed .notOpened (Op.openDirectory root.staging) i w = (.ok (), w)) ∨
        ∃ e, Op.orDisturbed .notOpened (Op.openDirectory root.staging) i w =
          (.error e, { w with disturbances := .notOpened :: w.disturbances }) := by
      intro i w hw
      unfold Op.orDisturbed Op.openDirectory Op.reading Op.io
      cases hfault : i.fault with
      | some text => exact .inr ⟨_, rfl⟩
      | none =>
          left
          dsimp only
          rw [hw.directory]
          rfl
    refine holds_perform Staging.stable (fun i w e w' hw hop => ?_) fun i w _ w' hw hop => ?_
    · rcases hcases i w hw with hok | ⟨e', herr⟩
      · rw [hok] at hop
        cases (Prod.mk.inj hop).1
      · obtain rfl := (Prod.mk.inj (herr.symm.trans hop)).2
        refine ⟨fun hd => ?_, fun hn => hw.apart.foreign fun hm => hn (List.mem_cons_of_mem _ hm)⟩
        cases hd _ List.mem_cons_self
    · rcases hcases i w hw with hok | ⟨e', herr⟩
      · obtain rfl := (Prod.mk.inj (hok.symm.trans hop)).2
        exact hw
      · rw [herr] at hop
        cases (Prod.mk.inj hop).1
  unfold SafeRoot.make
  refine .bind (.mapError hcreate) fun _ => .bind (.mapError hopen) fun _ => ?_
  exact .pure fun w hw => ⟨⟨rfl, rfl⟩, hw⟩

theorem cleans_stageTree {R : Reader Key} {build : Build} {opened : OpenedFile} {progress : ProgressTracker}
    {batchSize : Nat} (hplain : progress.reporter.Plain) :
    Holds (fun _ => True) (Staging root) (stageTree R build opened progress batchSize root)
      (fun root' w => root.Same root' ∧ Staging root w) fun _ => Staging root := by
  have hstable : World.sharing.Stable (Staging root) := Staging.stable
  exact holds_confined (yields_stageTree hplain) hstable fun _ _ => Staging.moves

theorem cleans_publishTree {ω : IterOrder} {os : Platform} :
    Holds (fun _ => True) (Staging root) (publishTree ω os root) (fun _ _ => True)
      fun _ => Staging root := by
  have hstill : ∀ w fs c, Staging root w → Staging root { w with failures := fs, control := c } :=
    fun w fs c hw => ⟨⟨hw.apart.tree, hw.apart.foreign, hw.apart.guards⟩, hw.directory, hw.alone⟩
  have hstable : World.sharing.Stable (Staging root) := Staging.stable
  have hevent : ∀ e : OperationEvent, Holds (fun _ => True) (Staging root)
      (Prog.event e : WorldProg Unit) (fun _ => Staging root) fun _ => Staging root := fun e =>
    .modify hstable (fun _ _ => trivial) fun w hw => hstill w _ _ hw
  have hcommit : Holds (fun _ => True) (Staging root) (root.commit ω os) (fun _ _ => True)
      fun _ => Staging root := by
    have hsyncs : Built (confined root.Below)
        ((ω.arrange root.directories.values).forM fun directory =>
          syncDirectory (root.staging ++ directory) os) := .forM fun _ _ => built_syncDirectory _ os
    unfold SafeRoot.commit
    refine .bind (holds_confined hsyncs hstable fun _ _ => Staging.moves) fun _ => .assume fun _ => ?_
    refine .bind (Q := fun _ _ => True) (.mapError (holds_perform hstable ?_ ?_)) fun _ => ?_
    · intro i w e w' hw hop
      obtain rfl := Route.renameNoReplace_error hop
      exact hstill _ _ w'.control hw
    · exact fun _ _ _ _ _ _ => trivial
    · exact .bind (holds_attempt (T := fun _ => False) (built_syncDirectory _ os)) fun _ =>
        .pure fun _ _ => trivial
  unfold publishTree
  refine .bind (hevent _) fun _ => .bind (hevent _) fun _ => hcommit.bind fun warning => ?_
  cases warning with
  | none => exact holds_event
  | some text => exact holds_event.bind fun _ => holds_event

/-- The guard of the directory removes all of it, or the run is disturbed. -/
theorem cleans_dropRoot : Holds (fun _ => True) (Staging root) root.dropRoot (fun _ => Cleaned) E := by
  have hstable : World.sharing.Stable (Staging root) := Staging.stable
  unfold SafeRoot.dropRoot
  refine .bind (Q := fun guards w => (∀ p ∈ guards, root.Below p) ∧ Staging root w) ?_ fun guards => ?_
  · exact .read hstable (fun _ _ => trivial) fun w hw => ⟨hw.apart.guards, hw⟩
  refine .assume fun hguards => .bind (Q := fun _ => Staging root) ?_ fun _ => ?_
  · refine .forM (I := fun _ => Staging root) fun pre p post heq => ?_
    have hp : root.Below p := hguards p (heq ▸ List.mem_append_right pre List.mem_cons_self)
    refine .bind (Q := fun _ => Staging root) (.call hstable fun i w _ hw => ⟨trivial, ?_⟩) fun _ =>
      .pure fun _ h => h
    exact hw.moves (moves_removeFile hp i w)
  · refine .bind (Q := fun _ => Cleaned) (.call hstable fun i w _ hw => ⟨trivial, ?_⟩) fun _ =>
      .pure fun _ h => h
    show Cleaned (Op.orDisturbed .notRemoved (Op.removeDirAll root.staging) i w).2
    unfold Op.orDisturbed Op.removeDirAll
    cases hfault : i.fault with
    | some text =>
        refine ⟨fun hd => ?_, fun hn => hw.apart.foreign fun hm => hn (List.mem_cons_of_mem _ hm)⟩
        cases hd _ List.mem_cons_self
    | none =>
        dsimp only
        rw [if_pos hw.directory]
        refine ⟨fun _ => ?_, hw.apart.foreign⟩
        show w.fs.tree.prune root.staging (fun _ => true) = w.others.tree
        ext1 q
        by_cases hq : root.Below q
        · rw [FileTree.prune_all hq, hw.alone q hq]
        · rw [FileTree.prune_of_not_below hq, hw.apart.tree q hq]

/-- **A failed `extract` has cleaned up.** -/
theorem holds_execute {R : Reader Key} {req : ExtractRequest} :
    Holds (fun _ => True) Idle (execute R req) (fun _ _ => True) fun _ => Cleaned := by
  have hbefore : ∀ {β : Type} {V : β → Prop} {m : WorldProg β},
      Yields (confined fun _ => False) V m →
        Holds (fun _ => True) Idle m (fun b w => V b ∧ Idle w) fun _ => Cleaned := fun hm =>
    (holds_confined hm Idle.stable fun _ _ => Idle.moves).conseq (fun _ h => h)
      (fun _ _ h => h) fun _ _ => Idle.cleaned
  unfold execute installPool extractV2Inner
  refine .bind (hbefore (built_context built_sync)) fun _ => .assume fun _ => ?_
  refine .bind (hbefore (yields_openInput R req)) fun input => .assume fun hplain => ?_
  obtain ⟨opened, build, progress⟩ := input
  refine .bind (hbefore (built_choose _ _ _)) fun root => .assume fun _ => ?_
  refine .bind cleans_make fun root' => .assume fun hsame => ?_
  have hbody : Holds (fun _ => True) (Staging root) (do
      let root ← stageTree R build opened progress req.batchSize root'
      publishTree R.order R.os root) (fun _ _ => True) fun _ => Staging root' := by
    have hto : ∀ w, Staging root w → Staging root' w := fun w hw => hw.same hsame
    refine .bind ((cleans_stageTree hplain).pre hto) fun root'' => .assume fun hsame' => ?_
    refine cleans_publishTree.conseq (fun w hw => hw.same hsame') (fun _ _ h => h) fun _ w hw => ?_
    exact hw.same ⟨hsame'.1.symm, hsame'.2.symm⟩
  exact .onError hbody fun _ => cleans_dropRoot

end Extract

/-! ## Both operations -/

/-- A run that makes an output. -/
inductive OutputRequest where
  | pack (walk : List (Result Path)) (req : Pack.PackRequest)
  | extract (req : Extract.ExtractRequest)

def OutputRequest.execute (R : Reader Key) : OutputRequest → WorldProg Unit
  | .pack walk req => Pack.execute R walk req
  | .extract req => Extract.execute R req

/-- **Exact cleanup.** After a run that fails the tree is what everybody else has
made it, unless somebody else's object was at the temporary path before the run
made its file there, the new staging directory could not be opened, or a guard
could not remove; and files of others are as they left them, unless the duress
password was given. -/
theorem failed_run_cleans_up (R : Reader Key) (request : OutputRequest) {fs : Fs}
    (hfs : fs.tree.Rooted) {nextOther : Nat} {labels : List (Label WorldInput EnvAction)}
    {e : Error} {w : World}
    (hrun : run (interleave World.env) ((request.execute R).task, World.start fs nextOther) labels =
      some (.fail e, w)) :
    ((∀ d ∈ w.disturbances, d = .wiped) → w.fs.tree = w.others.tree) ∧
      (.wiped ∉ w.disturbances → ∀ n, w.fs.inodes (.other n) = w.others.inodes (.other n)) := by
  have hexecute : Holds (fun _ => True) Idle (request.execute R) (fun _ _ => True)
      fun _ => Cleaned := by
    cases request with
    | pack walk req => exact Pack.holds_execute
    | extract req => exact Extract.holds_execute
  have hsafe := hexecute.safe (fun _ _ _ _ => trivial) (fun _ => Cleaned.stable)
    (Idle.start hfs nextOther)
  obtain ⟨hleft, -⟩ := Task.Safe.run (B := fun _ => True) (I := fun _ => True) hsafe
    (fun _ a _ _ ha => Relation.ReflTransGen.single ⟨a, ha⟩)
    ⟨fun _ _ _ _ => trivial, fun _ _ _ _ => trivial⟩ trivial (fun l _ => l.uses_true) hrun
  have hcleaned := Task.Safe.of_fail hleft
  exact ⟨hcleaned.tree, hcleaned.foreign⟩

/-! ### Runs that fail -/

def sampleTree : FileTree OsString FsNode := fun p =>
  if p = [] ∨ p = [.utf8 "s"] then some .directory else none

def sampleFs : Fs := ⟨sampleTree, fun _ => ⟨[], 0⟩⟩

def sampleReader : Reader Unit :=
  ⟨clearCrypto, ⟨fun _ => some [], fun _ => none⟩, .stored, .unix, .ascii, id⟩

/-- The empty directory `s` is to be packed into `o`. -/
def sampleRequest : OutputRequest :=
  .pack [] ⟨[.utf8 "s"], [.utf8 "o"], "p", none, ⟨65536, 3, 1⟩, 1000, some [.utf8 "t"]⟩

def sampleInput (fault : Option String) : WorldInput := ⟨fault, 0, fun _ => false, fun _ => 1, 0⟩

def sampleSteps (n : Nat) : List (Label WorldInput EnvAction) :=
  List.replicate n (.task (.here (sampleInput none)))

/-- The disk is full when the new container gets its length. -/
def diskFull : List (Label WorldInput EnvAction) :=
  sampleSteps 14 ++ [.task (.here (sampleInput (some "No space left on device")))] ++ sampleSteps 1

theorem failed_run_cleans_up_sample : ∃ e w,
    run (interleave World.env) ((sampleRequest.execute sampleReader).task, World.start sampleFs 0)
      diskFull = some (.fail e, w) ∧ e.cause = .io "No space left on device" ∧
    w.fs.tree = w.others.tree := by
  have hend : (run (interleave World.env)
      ((sampleRequest.execute sampleReader).task, World.start sampleFs 0) diskFull).map
        (fun c => (c.1.error?.map (·.cause), c.2.disturbances)) =
          some (some (.io "No space left on device"), []) := by
    decide +kernel
  have hrooted : sampleFs.tree.Rooted := by
    intro p node hp hnode
    have hsource : p = [.utf8 "s"] := by
      have hat : p = [] ∨ p = [.utf8 "s"] := by
        by_contra hnot
        have hnone : sampleFs.tree p = none := if_neg hnot
        rw [hnone] at hnode
        cases hnode
      exact hat.resolve_left hp
    rw [hsource]
    rfl
  obtain ⟨⟨task, w⟩, hrun, htask⟩ := Option.map_eq_some_iff.mp hend
  obtain ⟨herror, hdisturbances⟩ := Prod.mk.inj htask
  obtain ⟨e, he, hcause⟩ := Option.map_eq_some_iff.mp herror
  obtain rfl := Task.error?_eq_some.mp he
  refine ⟨e, w, hrun, hcause, (failed_run_cleans_up sampleReader sampleRequest hrooted hrun).1 ?_⟩
  intro d hd
  rw [hdisturbances] at hd
  cases hd

/-- Somebody else makes a file at the temporary path before `pack` does. -/
def lostRace : List (Label WorldInput EnvAction) :=
  sampleSteps 12 ++ [.env (.mkfile [.utf8 "t"] ⟨[1, 2, 3], 5⟩)] ++ sampleSteps 2

/-- **The guard removes a file that the run has not made.** -/
theorem guard_removes_foreign_file : ∃ e w,
    run (interleave World.env) ((sampleRequest.execute sampleReader).task, World.start sampleFs 0)
      lostRace = some (.fail e, w) ∧
    w.others.tree [.utf8 "t"] = some (.file (.other 0)) ∧ w.fs.tree [.utf8 "t"] = none := by
  have hend : (run (interleave World.env)
      ((sampleRequest.execute sampleReader).task, World.start sampleFs 0) lostRace).map
        (fun c => (c.1.error?.isSome, c.2.others.tree [.utf8 "t"], c.2.fs.tree [.utf8 "t"])) =
          some (true, some (.file (.other 0)), none) := by
    decide +kernel
  obtain ⟨⟨task, w⟩, hrun, htask⟩ := Option.map_eq_some_iff.mp hend
  obtain ⟨herror, hothers, hfs⟩ := by simpa only [Prod.mk.injEq] using htask
  obtain ⟨e, he⟩ := Option.isSome_iff_exists.mp herror
  obtain rfl := Task.error?_eq_some.mp he
  exact ⟨e, w, hrun, hothers, hfs⟩

end CipherFS
