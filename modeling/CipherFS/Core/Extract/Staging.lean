import CipherFS.Core.Extract
import CipherFS.Core.Interference

/-!
# The staging directory as a set of objects

What is below the staging directory is described as a whole: which objects, at
which paths, and for each file from which chunks its content comes. Nobody else
can act there, so every operation of `SafeRoot` and `PendingFile` changes the
description in one known way, and can fail only with an error of the system.
-/

namespace CipherFS.Extract

open WorldProg Prog V2

variable {α Key : Type} {base : Path} {w w' : World} {P P' : World → Prop} {Q : α → World → Prop}

/-! ## Nobody else -/

/-- The staging directory is this run's alone. -/
structure Guarded (base : Path) (w : World) : Prop where
  staging : w.fs.tree base = some .directory
  alone : ∀ q, base <+: q → w.others.tree q = none
  current : ∀ n, w.fs.inodes (.other n) ∈ w.versions n

/-- Nothing of this run has changed. -/
structure Frame (base : Path) (w w' : World) : Prop where
  below : ∀ q, base <+: q → w'.fs.tree q = w.fs.tree q
  alone : ∀ q, base <+: q → w'.others.tree q = w.others.tree q
  own : ∀ n, w'.fs.inodes (.own n) = w.fs.inodes (.own n)
  issued : w'.nextOwn = w.nextOwn
  history : ∀ n, w.versions n ⊆ w'.versions n
  current : (∀ n, w.fs.inodes (.other n) ∈ w.versions n) →
    ∀ n, w'.fs.inodes (.other n) ∈ w'.versions n

theorem Frame.refl (w : World) : Frame base w w where
  below _ _ := rfl
  alone _ _ := rfl
  own _ := rfl
  issued := rfl
  history _ := List.Subset.refl _
  current h := h

theorem Frame.trans {w'' : World} (h : Frame base w w') (h' : Frame base w' w'') :
    Frame base w w'' where
  below q hq := (h'.below q hq).trans (h.below q hq)
  alone q hq := (h'.alone q hq).trans (h.alone q hq)
  own n := (h'.own n).trans (h.own n)
  issued := h'.issued.trans h.issued
  history n := List.Subset.trans (h.history n) (h'.history n)
  current hn := h'.current (h.current hn)

/-- Everybody else makes objects in directories of their own. -/
theorem kept_below (h : Interferes w w') (hbase : w.fs.tree base = some .directory)
    (halone : ∀ q, base <+: q → w.others.tree q = none) :
    ∀ q, base <+: q → w'.fs.tree q = w.fs.tree q ∧ w'.others.tree q = w.others.tree q := by
  intro q hq
  rcases h.tree q with hsame | ⟨hnone, hparent, -⟩
  · exact hsame
  · exfalso
    obtain ⟨r, rfl⟩ := hq
    by_cases hr : r = []
    · rw [hr, List.append_nil, hbase] at hnone
      cases hnone
    · rw [List.dropLast_append_of_ne_nil hr, halone _ (List.prefix_append _ _)] at hparent
      cases hparent

theorem Frame.of_interferes (h : Interferes w w') (hg : Guarded base w) : Frame base w w' := by
  have hkept := kept_below h hg.staging hg.alone
  exact
    { below := fun q hq => (hkept q hq).1, alone := fun q hq => (hkept q hq).2, own := h.own
      issued := h.issued, history := h.history, current := h.current }

theorem Guarded.frame (hg : Guarded base w) (h : Frame base w w') : Guarded base w' where
  staging := (h.below base (List.prefix_refl _)).trans hg.staging
  alone q hq := (h.alone q hq).trans (hg.alone q hq)
  current := h.current hg.current

/-- An assertion about this run: what it has made and what it has in memory. -/
def Lasting (base : Path) (P : World → Prop) : Prop :=
  ∀ w w', P w → Frame base w w' → w'.chunks = w.chunks → P w'

namespace Lasting

theorem const (a : Prop) : Lasting base fun _ => a := fun _ _ ha _ _ => ha

theorem and (h : Lasting base P) (h' : Lasting base P') : Lasting base fun w => P w ∧ P' w :=
  fun w w' hw hframe hchunks => ⟨h w w' hw.1 hframe hchunks, h' w w' hw.2 hframe hchunks⟩

/-- A run may rely on what is its own. -/
theorem stable (h : Lasting base P) (hg : ∀ w, P w → Guarded base w) : World.sharing.Stable P :=
  World.stable_sharing fun w w' hi hw => h w w' hw (.of_interferes hi (hg w hw)) hi.chunks

end Lasting

/-! ## Steps -/

section Steps

variable {faults : String → Prop} {A : WorldInput → Prop} {E : Error → World → Prop}

/-- The run was cancelled, or the system has failed a call. -/
def Stopped (faults : String → Prop) (e : Error) : Prop :=
  e.cause = .cancelled ∨ ∃ text, faults text ∧ e.cause = .io text

/-- The errors of the inputs are among those the assertion about errors allows. -/
structure Tolerates (faults : String → Prop) (A : WorldInput → Prop) (E : Error → World → Prop) :
    Prop where
  inputs : ∀ i, A i → ∀ text, i.fault = some text → faults text
  errors : ∀ e w, Stopped faults e → E e w

/-- A program beside everybody else, whose own steps promise nothing. -/
abbrev Holds (A : WorldInput → Prop) (P : World → Prop) (m : WorldProg α)
    (Q : α → World → Prop) (E : Error → World → Prop) : Prop :=
  Triple A World.sharing (fun _ _ => True) P m Q E

/-- A call that succeeds unless the system fails it. -/
theorem holds_io {f : WorldInput → World → Result α × World} (ht : Tolerates faults A E)
    (hP : World.sharing.Stable P)
    (h : ∀ i w, A i → P w → ∃ a w', f i w = (.ok a, w') ∧ Q a w') :
    Holds A P (perform (Op.io f)) Q E := by
  refine .call hP fun i w hi hw => ⟨trivial, ?_⟩
  cases hfault : i.fault with
  | none =>
      obtain ⟨a, w', heq, hQ⟩ := h i w hi hw
      simp only [Op.io, hfault, heq, Post]
      exact hQ
  | some text =>
      simp only [Op.io, hfault, Post, Result.ioError]
      exact ht.errors _ _ (.inr ⟨text, ht.inputs i hi text hfault, rfl⟩)

theorem holds_reading {f : World → Result α} (ht : Tolerates faults A E)
    (hP : World.sharing.Stable P) (h : ∀ w, P w → ∃ a, f w = .ok a ∧ Q a w) :
    Holds A P (perform (Op.reading f)) Q E := by
  refine holds_io ht hP fun i w _ hw => ?_
  obtain ⟨a, heq, hQ⟩ := h w hw
  exact ⟨a, w, by rw [heq], hQ⟩

theorem holds_sync (ht : Tolerates faults A E) (hP : World.sharing.Stable P) :
    Holds A P (perform Op.sync) (fun _ => P) E :=
  holds_reading ht hP fun _ hw => ⟨(), rfl, hw⟩

/-- A context leaves the cause of an error as it is. -/
theorem holds_context {text : String} {m : WorldProg α} (ht : Tolerates faults A E)
    (h : Tolerates faults A (fun e _ => Stopped faults e) →
      Holds A P m Q fun e _ => Stopped faults e) : Holds A P (m.context text) Q E :=
  .mapError ((h ⟨ht.inputs, fun _ _ he => he⟩).conseq (fun _ hw => hw) (fun _ _ hw => hw)
    fun e w he => ht.errors ⟨e.cause, _⟩ w he)

theorem holds_require {r : Result α} {a : α} (h : r = .ok a) :
    Holds A P (require r) (fun b w => b = a ∧ P w) E := by
  subst h
  exact .pure fun w hw => ⟨rfl, hw⟩

theorem holds_check (ht : Tolerates faults A E) (hP : World.sharing.Stable P) :
    Holds A P (Prog.check : WorldProg Unit) (fun _ => P) E := by
  refine .call hP fun i w _ hw => ⟨trivial, ?_⟩
  dsimp only
  split
  · exact ht.errors _ _ (.inl rfl)
  · exact hw

/-- A change of what no assertion of this run is about. -/
theorem holds_modify {f : World → World} (hlasting : Lasting base P)
    (hg : ∀ w, P w → Guarded base w)
    (hf : ∀ w, Frame base w (f w) ∧ (f w).chunks = w.chunks) :
    Holds A P (Prog.modify f : WorldProg Unit) (fun _ => P) E :=
  .modify (hlasting.stable hg) (fun _ _ => trivial) fun w hw => hlasting w _ hw (hf w).1 (hf w).2

theorem holds_onControl {f : Control → Control} (hlasting : Lasting base P)
    (hg : ∀ w, P w → Guarded base w) :
    Holds A P (Prog.onControl f : WorldProg Unit) (fun _ => P) E :=
  holds_modify hlasting hg fun w => ⟨{ Frame.refl w with }, rfl⟩

end Steps

/-! ## Chunks -/

section Chunks

variable (R : Reader Key) (opened : OpenedFile) (container : Nat)

/-- What `decrypt_chunk` comes to on a content that the container file has had. -/
def Decrypts (e : Entry) (k : UInt64) (r : Result Bytes) (w : World) : Prop :=
  ∃ inode ∈ w.versions container, decryptChunk R.crypto
    ⟨inode.content, opened.header, opened.index, opened.dek, opened.dataStart⟩ e k = r

/-- The file holds the chunks, one after the other. -/
def Written (e : Entry) (file : Nat) (ks : List UInt64) (w : World) : Prop :=
  ∃ parts, List.Forall₂ (fun k data => Decrypts R opened container e k (.ok data) w) ks parts ∧
    (w.fs.inodes (.own file)).content = parts.flatten

/-- The cells of the chunks are filled. -/
def Loaded (e : Entry) (ks : List UInt64) (w : World) : Prop :=
  ∀ k ∈ ks, Decrypts R opened container e k (.ok (w.chunks k)) w

variable {R opened container} {e : Entry} {k : UInt64} {r : Result Bytes} {file : Nat}
  {ks : List UInt64}

theorem Decrypts.grow (h : Decrypts R opened container e k r w)
    (hw : ∀ n, w.versions n ⊆ w'.versions n) : Decrypts R opened container e k r w' := by
  obtain ⟨inode, hmem, heq⟩ := h
  exact ⟨inode, hw container hmem, heq⟩

theorem Decrypts.lasting : Lasting base (Decrypts R opened container e k r) :=
  fun _ _ h hframe _ => h.grow hframe.history

theorem Written.grow (h : Written R opened container e file ks w)
    (hown : w'.fs.inodes (.own file) = w.fs.inodes (.own file))
    (hw : ∀ n, w.versions n ⊆ w'.versions n) : Written R opened container e file ks w' := by
  obtain ⟨parts, hparts, hcontent⟩ := h
  exact ⟨parts, hparts.imp fun _ _ hd => hd.grow hw, by rw [hown, hcontent]⟩

theorem Written.lasting : Lasting base (Written R opened container e file ks) :=
  fun _ _ h hframe _ => h.grow (hframe.own file) hframe.history

theorem Loaded.lasting : Lasting base (Loaded R opened container e ks) := by
  intro w w' h hframe hchunks k hk
  rw [hchunks]
  exact (h k hk).grow hframe.history

end Chunks

/-! ## Objects -/

/-- The state while the tree is being built: exactly the objects of `S` are below
the staging directory, the files of `files` are complete, and `next` is the
number of the next file. -/
structure Building (R : Reader Key) (opened : OpenedFile) (container : Nat) (base : Path)
    (files : List (Entry × PendingFile)) (S : Path → FsNode → Prop) (next : Nat) (w : World) :
    Prop where
  guarded : Guarded base w
  objects : ∀ q node, w.fs.tree (base ++ q) = some node ↔ S q node
  filled : ∀ f ∈ files, Written R opened container f.1 f.2.file f.1.chunkIndices w
  issued : w.nextOwn = next

section Objects

variable {R : Reader Key} {opened : OpenedFile} {container next : Nat}
  {files : List (Entry × PendingFile)} {S : Path → FsNode → Prop} {q : Path} {node : FsNode}

namespace Building

theorem frame (h : Building R opened container base files S next w) (hf : Frame base w w') :
    Building R opened container base files S next w' where
  guarded := h.guarded.frame hf
  objects q node := by
    rw [hf.below _ (List.prefix_append _ _)]
    exact h.objects q node
  filled f hf' := (h.filled f hf').grow (hf.own _) hf.history
  issued := hf.issued.trans h.issued

theorem lasting : Lasting base (Building R opened container base files S next) :=
  fun _ _ h hframe _ => h.frame hframe

theorem stable : World.sharing.Stable (Building R opened container base files S next) :=
  Building.lasting.stable fun _ h => h.guarded

theorem congr {S' : Path → FsNode → Prop} (h : Building R opened container base files S next w)
    (hS : ∀ q node, S q node ↔ S' q node) :
    Building R opened container base files S' next w :=
  { h with objects := fun q node => (h.objects q node).trans (hS q node) }

theorem vacant (h : Building R opened container base files S next w) (hq : ∀ node, ¬S q node) :
    w.fs.tree (base ++ q) = none := by
  cases hn : w.fs.tree (base ++ q) with
  | none => rfl
  | some node => exact absurd ((h.objects q node).mp hn) (hq node)

/-- Nothing is in the way of a new object in a directory. -/
theorem vacant_child {a : OsString} (h : Building R opened container base files S next w)
    (hparent : S q .directory) (hq : ∀ node, ¬S (q ++ [a]) node) :
    w.fs.vacant (base ++ (q ++ [a])) = .ok () := by
  have hdrop : (base ++ (q ++ [a])).dropLast = base ++ q := by
    rw [← List.append_assoc, List.dropLast_concat]
  rw [Fs.vacant, hdrop, h.vacant hq, (h.objects q .directory).mpr hparent]

theorem objects_put (h : Building R opened container base files S next w)
    (hq : ∀ node, ¬S q node) (node : FsNode) (q' : Path) (node' : FsNode) :
    w.fs.tree.put (base ++ q) node (base ++ q') = some node' ↔
      S q' node' ∨ q' = q ∧ node' = node := by
  by_cases hqq : q' = q
  · subst hqq
    rw [FileTree.put_self, Option.some.injEq, eq_comm]
    simp [hq node']
  · rw [FileTree.put_of_ne fun heq => hqq (List.append_cancel_left heq), h.objects]
    simp [hqq]

theorem guarded_put (h : Building R opened container base files S next w)
    (hq : ∀ node, ¬S q node) (node : FsNode) :
    w.fs.tree.put (base ++ q) node base = some .directory := by
  rw [FileTree.put_of_ne, h.guarded.staging]
  intro heq
  rw [List.self_eq_append_right] at heq
  subst heq
  have hroot : w.fs.tree (base ++ []) = some .directory := by
    rw [List.append_nil, h.guarded.staging]
  exact hq _ ((h.objects [] .directory).mp hroot)

end Building

end Objects

end CipherFS.Extract
