import CipherFS.Core.Extract.Staging
import CipherFS.Core.V2.IndexTree

/-!
# What the operations of an extraction do

One lemma for each operation, about the description of the staging directory.
Where its parent is there and its name is free, an operation does what it is
called for or ends with an error of the system.
-/

namespace CipherFS.Extract

open WorldProg Prog V2

variable {Key : Type} {R : Reader Key} {opened : OpenedFile} {container next : Nat}
  {files : List (Entry × PendingFile)} {S : Path → FsNode → Prop} {root : SafeRoot} {w : World}
  {faults : String → Prop} {A : WorldInput → Prop} {E : Error → World → Prop}

/-! ## Directories -/

theorem holds_createDir {p : Path} {a : OsString} (ht : Tolerates faults A E)
    (hparent : S p .directory) (hfree : ∀ node, ¬S (p ++ [a]) node) :
    Holds A (Building R opened container root.staging files S next)
      (perform (Op.createDir (root.staging ++ (p ++ [a]))))
      (fun _ => Building R opened container root.staging files
        (fun q node => S q node ∨ q = p ++ [a] ∧ node = .directory) next) E := by
  refine holds_io ht Building.stable fun i w _ hw => ?_
  rw [hw.vacant_child hparent hfree]
  refine ⟨(), _, rfl, ?_⟩
  exact
    { guarded := { hw.guarded with staging := hw.guarded_put hfree _ }
      objects := hw.objects_put hfree _
      filled := hw.filled
      issued := hw.issued }

theorem holds_symlinkMetadata {p : Path} {node : FsNode} (ht : Tolerates faults A E)
    (hnode : S p node) :
    Holds A (Building R opened container root.staging files S next)
      (perform (Op.symlinkMetadata (root.staging ++ p)))
      (fun found w => found = node ∧ Building R opened container root.staging files S next w) E := by
  refine holds_reading ht Building.stable fun w hw => ⟨node, ?_, rfl, hw⟩
  rw [(hw.objects p node).mpr hnode]

theorem holds_openDirectory {p : Path} (ht : Tolerates faults A E) (hdir : S p .directory) :
    Holds A (Building R opened container root.staging files S next)
      (perform (Op.openDirectory (root.staging ++ p)))
      (fun _ => Building R opened container root.staging files S next) E := by
  refine holds_reading ht Building.stable fun w hw => ⟨(), ?_, hw⟩
  rw [(hw.objects p .directory).mpr hdir]

/-- `create_directory` under a known parent and a free name. -/
theorem holds_createDirectory {id parentId : UInt64} {name : String} {parent : Path}
    (ht : Tolerates faults A E) (hname : validateName .unix name = .ok ())
    (hparent : root.directories.lookup parentId = some parent) (hdir : S parent .directory)
    (hfree : ∀ node, ¬S (parent ++ [.utf8 name]) node) :
    Holds A (Building R opened container root.staging files S next)
      (root.createDirectory .unix id parentId name)
      (fun root' w => root' = { root with
          directories := root.directories.insert id (parent ++ [.utf8 name]) } ∧
        Building R opened container root.staging files
          (fun q node => S q node ∨ q = parent ++ [.utf8 name] ∧ node = .directory) next w) E := by
  have hlookup : Result.ofOption (root.directories.lookup parentId)
      "Parent directory has not been created" = .ok parent := by
    rw [hparent]
    rfl
  unfold SafeRoot.createDirectory
  refine (holds_require hname).bind fun _ => .assume fun _ => ?_
  refine (holds_require hlookup).bind fun p => .assume fun hp => ?_
  subst hp
  refine (holds_context ht fun ht => holds_createDir ht hdir hfree).bind fun _ => ?_
  refine (holds_symlinkMetadata ht (.inr ⟨rfl, rfl⟩)).bind fun node => .assume fun hnode => ?_
  subst hnode
  refine (holds_require (a := ()) rfl).bind fun _ => .assume fun _ => ?_
  refine (holds_context ht fun ht => holds_openDirectory ht (.inr ⟨rfl, rfl⟩)).bind fun _ => ?_
  exact .pure fun w hw => ⟨rfl, hw⟩

/-! ## Files -/

/-- The state after the `File` case has opened a temporary file. -/
structure Opened (R : Reader Key) (opened : OpenedFile) (container : Nat) (base : Path)
    (files : List (Entry × PendingFile)) (S : Path → FsNode → Prop) (file : Nat) (e : Entry)
    (ks : List UInt64) (w : World) : Prop where
  building : Building R opened container base files S (file + 1) w
  written : Written R opened container e file ks w

theorem Opened.frame {base : Path} {file : Nat} {e : Entry} {ks : List UInt64} {w' : World}
    (h : Opened R opened container base files S file e ks w) (hf : Frame base w w') :
    Opened R opened container base files S file e ks w' :=
  ⟨h.building.frame hf, h.written.grow (hf.own file) hf.history⟩

theorem Opened.lasting {base : Path} {file : Nat} {e : Entry} {ks : List UInt64} :
    Lasting base (Opened R opened container base files S file e ks) :=
  fun _ _ h hframe _ => h.frame hframe

theorem Opened.stable {base : Path} {file : Nat} {e : Entry} {ks : List UInt64} :
    World.sharing.Stable (Opened R opened container base files S file e ks) :=
  Opened.lasting.stable fun _ h => h.building.guarded

/-- A path where nothing is. A call that the system fails finds nothing either. -/
theorem holds_absent {p : Path} (hfree : ∀ node, ¬S p node) :
    Holds A (Building R opened container root.staging files S next)
      (attempted (Op.symlinkMetadata (root.staging ++ p)))
      (fun found w => found.isOk = false ∧ Building R opened container root.staging files S next w)
      E := by
  refine .call Building.stable fun i w _ hw => ⟨trivial, ?_⟩
  cases hfault : i.fault with
  | none =>
      simp only [Op.symlinkMetadata, Op.reading, Op.io, hfault, hw.vacant hfree]
      exact ⟨rfl, hw⟩
  | some text =>
      simp only [Op.symlinkMetadata, Op.reading, Op.io, hfault]
      exact ⟨rfl, hw⟩

theorem holds_random {P : World → Prop} {n : Nat} (hP : World.sharing.Stable P) :
    Holds A P (random n) (fun r w => (∃ i, A i ∧ r = fillBytes i 0 n) ∧ P w) E :=
  .call hP fun i _ hi hw => ⟨trivial, ⟨i, hi, rfl⟩, hw⟩

theorem inodes_other {inodes : Ino → Inode} {n : Nat} {inode : Inode} (k : Nat) :
    Function.update inodes (.own n) inode (.other k) = inodes (.other k) :=
  Function.update_of_ne Ino.noConfusion ..

theorem inodes_own {inodes : Ino → Inode} {n k : Nat} {inode : Inode} (h : k ≠ n) :
    Function.update inodes (.own n) inode (.own k) = inodes (.own k) :=
  Function.update_of_ne (fun heq => h (Ino.own.inj heq)) ..

theorem holds_createNew {p : Path} {a : OsString} (e : Entry) (ht : Tolerates faults A E)
    (hold : ∀ f ∈ files, f.2.file < next) (hparent : S p .directory)
    (hfree : ∀ node, ¬S (p ++ [a]) node) :
    Holds A (Building R opened container root.staging files S next)
      (perform (Op.createNew (root.staging ++ (p ++ [a]))))
      (fun file w => file = next ∧ Opened R opened container root.staging files
        (fun q node => S q node ∨ q = p ++ [a] ∧ node = .file (.own next)) next e [] w) E := by
  refine holds_io ht Building.stable fun i w _ hw => ?_
  have hnext : w.nextOwn = next := hw.issued
  rw [hw.vacant_child hparent hfree]
  refine ⟨w.nextOwn, _, rfl, hnext, ?_, ?_⟩
  · refine
      { guarded :=
          { staging := hw.guarded_put hfree _
            alone := hw.guarded.alone
            current := fun n => ?_ }
        objects := fun q node => ?_
        filled := fun f hf => ?_
        issued := congrArg (· + 1) hnext }
    · show Function.update w.fs.inodes (.own w.nextOwn) ⟨[], i.time⟩ (.other n) ∈ w.versions n
      rw [inodes_other]
      exact hw.guarded.current n
    · rw [← hnext]
      exact hw.objects_put hfree _ q node
    · refine (hw.filled f hf).grow (inodes_own ?_) fun _ => List.Subset.refl _
      rw [hnext]
      exact Nat.ne_of_lt (hold f hf)
  · refine ⟨[], .nil, ?_⟩
    rw [← hnext]
    show (Function.update w.fs.inodes (.own w.nextOwn) ⟨[], i.time⟩ (.own w.nextOwn)).content = []
    rw [Function.update_self]

/-- `begin_file` under a known parent, with a free name and a fresh temporary name. -/
theorem holds_beginFile {parentId : UInt64} {parent : Path} {e : Entry}
    {fresh : ByteArr 8 → Prop} (ht : Tolerates faults A E)
    (hfresh : ∀ i, A i → fresh (fillBytes i 0 8)) (hname : validateName .unix e.name = .ok ())
    (hparent : root.directories.lookup parentId = some parent) (hdir : S parent .directory)
    (hfree : ∀ node, ¬S (parent ++ [.utf8 e.name]) node)
    (htemp : ∀ r, fresh r → ∀ node, ¬S (parent ++ [SafeRoot.tempName e.id r]) node)
    (hold : ∀ f ∈ files, f.2.file < next) :
    Holds A (Building R opened container root.staging files S next)
      (root.beginFile .unix parentId e.name e.id)
      (fun pending w => ∃ r, (fresh r ∧ pending =
          ⟨root.staging ++ parent, SafeRoot.tempName e.id r, .utf8 e.name, next⟩) ∧
        Opened R opened container root.staging files (fun q node => S q node ∨
          q = parent ++ [SafeRoot.tempName e.id r] ∧ node = .file (.own next)) next e [] w) E := by
  have hlookup : Result.ofOption (root.directories.lookup parentId)
      "Parent directory has not been created" = .ok parent := by
    rw [hparent]
    rfl
  unfold SafeRoot.beginFile
  refine (holds_require hname).bind fun _ => .assume fun _ => ?_
  refine (holds_require hlookup).bind fun p => .assume fun hp => ?_
  subst hp
  refine (holds_absent hfree).bind fun found => .assume fun hfound => ?_
  have hnew : Result.rejectIf (found.isOk = true) ("Duplicate output entry " ++ e.name) =
      .ok () := by
    rw [Result.rejectIf_eq_ok, hfound]
    nofun
  refine (holds_require hnew).bind fun _ => .assume fun _ => ?_
  refine (holds_random Building.stable).bind fun r => .assume fun ⟨i, hi, hr⟩ => ?_
  subst hr
  refine (holds_context ht fun ht => holds_createNew e ht hold hdir
    (htemp _ (hfresh i hi))).bind fun file => .assume fun hfile => ?_
  subst hfile
  refine (holds_sync ht Opened.stable).bind fun _ => ?_
  refine .bind (holds_modify Opened.lasting (fun _ h => h.building.guarded)
    fun w => ⟨{ Frame.refl w with }, rfl⟩) fun _ => ?_
  exact .pure fun w hw => ⟨_, ⟨hfresh i hi, rfl⟩, hw⟩

/-! ## Installing -/

theorem Building.objects_rename {src dst : Path} {node : FsNode} {base : Path}
    (h : Building R opened container base files S next w) (hdst : ∀ node, ¬S dst node)
    (q : Path) (node' : FsNode) :
    (w.fs.tree.remove (base ++ src)).put (base ++ dst) node (base ++ q) = some node' ↔
      (S q node' ∧ q ≠ src) ∨ q = dst ∧ node' = node := by
  by_cases hq : q = dst
  · subst hq
    rw [FileTree.put_self, Option.some.injEq, eq_comm]
    simp [hdst node']
  · rw [FileTree.put_of_ne fun heq => hq (List.append_cancel_left heq)]
    by_cases hs : q = src
    · subst hs
      rw [FileTree.remove_self]
      simp [hq]
    · rw [FileTree.remove_of_ne fun heq => hs (List.append_cancel_left heq), h.objects]
      simp [hq, hs]

theorem holds_rename {src dst : Path} {ino : Ino} (ht : Tolerates faults A E)
    (hsrc : S src (.file ino)) (hdst : ∀ node, ¬S dst node) (hroot : S [] .directory) :
    Holds A (Building R opened container root.staging files S next)
      (perform (Op.rename (root.staging ++ src) (root.staging ++ dst)))
      (fun _ => Building R opened container root.staging files
        (fun q node => (S q node ∧ q ≠ src) ∨ q = dst ∧ node = .file ino) next) E := by
  refine holds_io ht Building.stable fun i w _ hw => ?_
  have hobjects : ∀ q node, (w.fs.tree.remove (root.staging ++ src)).put (root.staging ++ dst)
      (.file ino) (root.staging ++ q) = some node ↔
        (S q node ∧ q ≠ src) ∨ q = dst ∧ node = .file ino := hw.objects_rename hdst
  rw [(hw.objects src _).mpr hsrc, hw.vacant hdst]
  refine ⟨(), _, rfl, ?_⟩
  refine
    { guarded := { hw.guarded with staging := ?_ }
      objects := hobjects
      filled := hw.filled
      issued := hw.issued }
  have hstaging := (hobjects [] .directory).mpr (.inl ⟨hroot, ?_⟩)
  · rwa [List.append_nil] at hstaging
  · rintro rfl
    have hfile := (hw.objects [] (.file ino)).mpr hsrc
    rw [(hw.objects [] .directory).mpr hroot] at hfile
    cases hfile

end CipherFS.Extract
