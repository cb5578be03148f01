import CipherFS.Core.Extract.Order
import CipherFS.Core.V2.NameGrammar

/-!
# The loop over the entries

The loop keeps one description of the staging directory: the directories it has
met, and one temporary file for each file it has met. Since parents come first
and paths are distinct, no iteration finds its parent missing or its name taken.
-/

namespace CipherFS.Extract

open WorldProg Prog V2

variable {Key W : Type} {R : Reader Key} {opened : OpenedFile} {container first : Nat}
  {progress : ProgressTracker} {batchSize : Nat} {root : SafeRoot} {os : Platform}
  {header : Header W} {es : List Entry} {v : ValidatedIndex} {base : Path}
  {pre post : List Entry} {files : List (Entry × PendingFile)} {state : SafeRoot × List PendingFile}
  {faults : String → Prop} {w w' : World}

/-! ## The description -/

/-- Where the temporary file of an entry lies. -/
def heldAt (v : ValidatedIndex) (f : Entry × PendingFile) : Path :=
  (entryPath v f.1).dropLast ++ [f.2.tempName]

/-- A pending file is beside its place, under a temporary name of its own. -/
structure Prepared (v : ValidatedIndex) (base : Path) (f : Entry × PendingFile) : Prop where
  mem : f.1 ∈ v.entries.values
  kind : f.1.kind = .file
  parent : f.2.parent = base ++ (entryPath v f.1).dropLast
  final : f.2.finalName = .utf8 f.1.name
  temp : ∃ r, f.2.tempName = SafeRoot.tempName f.1.id r
  fresh : ∀ e ∈ v.entries.values, f.2.tempName ≠ .utf8 e.name

/-- The objects after the entries of `pre`. -/
def Objects (v : ValidatedIndex) (pre : List Entry) (files : List (Entry × PendingFile))
    (q : Path) (node : FsNode) : Prop :=
  (∃ e ∈ v.entries.values, (e.id = 1 ∨ e ∈ pre) ∧ e.kind = .directory ∧ q = entryPath v e ∧
    node = .directory) ∨
  ∃ f ∈ files, q = heldAt v f ∧ node = .file (.own f.2.file)

/-- What the loop has in memory after the entries of `pre`. -/
structure Stage (v : ValidatedIndex) (base : Path) (first : Nat) (pre : List Entry)
    (files : List (Entry × PendingFile)) (state : SafeRoot × List PendingFile) : Prop where
  staging : state.1.staging = base
  directories : ∀ e ∈ v.entries.values, e.kind = .directory → (e.id = 1 ∨ e ∈ pre) →
    state.1.directories.lookup e.id = some (entryPath v e)
  pending : state.2 = files.map Prod.snd
  entries : files.map Prod.fst = pre.filter Entry.isFile
  numbers : files.map (fun f => f.2.file) = List.range' first files.length
  prepared : ∀ f ∈ files, Prepared v base f

theorem Stage.older (h : Stage v base first pre files state) :
    ∀ f ∈ files, f.2.file < first + files.length := by
  intro f hf
  have hmem : f.2.file ∈ List.range' first files.length := by
    rw [← h.numbers]
    exact List.mem_map_of_mem hf
  exact (List.mem_range'_1.mp hmem).2

namespace Prepared

theorem temp_eq {f : Entry × PendingFile} (h : Prepared v base f) :
    f.2.temp = base ++ heldAt v f := by
  rw [PendingFile.temp, h.parent, heldAt, List.append_assoc]

variable (hv : Extractable v)
include hv

/-- An entry that is a file is below its parent. -/
theorem path_eq {f : Entry × PendingFile} (h : Prepared v base f) :
    entryPath v f.1 = (entryPath v f.1).dropLast ++ [.utf8 f.1.name] := by
  have hid : f.1.id ≠ 1 := by
    intro hid
    have hkind := h.kind
    rw [(hv.root_path f.1 h.mem hid).1] at hkind
    cases hkind
  obtain ⟨p, -, -, -, -, hpath⟩ := hv.child f.1 h.mem hid
  rw [hpath, List.dropLast_concat]

theorem final_eq {f : Entry × PendingFile} (h : Prepared v base f) :
    f.2.final = base ++ entryPath v f.1 := by
  rw [PendingFile.final, h.parent, h.final, List.append_assoc, ← h.path_eq hv]

/-- A temporary file is at no entry's path. -/
theorem ne_entry {f : Entry × PendingFile} (h : Prepared v base f) {e : Entry}
    (he : e ∈ v.entries.values) : entryPath v e ≠ heldAt v f := hv.ne he h.fresh

omit hv in
/-- Two entries have two temporary files. -/
theorem eq_of_heldAt {f f' : Entry × PendingFile} (h : Prepared v base f)
    (h' : Prepared v base f') (heq : heldAt v f = heldAt v f') : f.1.id = f'.1.id := by
  obtain ⟨r, hr⟩ := h.temp
  obtain ⟨r', hr'⟩ := h'.temp
  have hname := (List.cons.inj (List.append_inj' heq rfl).2).1
  rw [hr, hr'] at hname
  exact tempName_injective hname

end Prepared

/-! ## One entry -/

/-- The inputs of an extraction: calls fail only with the errors of `faults`, and
no temporary name that is drawn is the name of an entry. -/
structure Answers (faults : String → Prop) (v : ValidatedIndex) (i : WorldInput) : Prop where
  faulty : Faulty faults i
  fresh : ∀ e ∈ v.entries.values, ∀ e' ∈ v.entries.values,
    SafeRoot.tempName e.id (fillBytes i 0 8) ≠ .utf8 e'.name

section Turn

variable {ω : IterOrder} {e : Entry} (hv : Extractable v)
  (hsplit : extractionOrder ω v = pre ++ e :: post)
include hv hsplit

omit hv in
theorem mem_of_split : e ∈ v.entries.values := by
  refine (extractionOrder_perm ω v).mem_iff.mp ?_
  rw [hsplit]
  exact List.mem_append_right pre List.mem_cons_self

theorem notMem_of_split : e ∉ pre := by
  have hnodup : (pre ++ e :: post).Nodup := by
    rw [← hsplit]
    exact (extractionOrder_perm ω v).nodup_iff.mpr hv.nodup
  exact fun he => (List.nodup_append.mp hnodup).2.2 e he e List.mem_cons_self rfl

/-- **The parent of an entry has been made when its turn comes.** -/
theorem Stage.parent (h : Stage v base first pre files state) (hid : e.id ≠ 1) :
    ∃ parent, state.1.directories.lookup e.parentId = some parent ∧
      Objects v pre files parent .directory ∧ entryPath v e = parent ++ [.utf8 e.name] := by
  obtain ⟨p, hp, hpid, hkind, hdepth, hpath⟩ := hv.child e (mem_of_split hsplit) hid
  have hpre : p ∈ pre := mem_before hsplit hp hdepth
  refine ⟨entryPath v p, ?_, .inl ⟨p, hp, .inr hpre, hkind, rfl, rfl⟩, hpath⟩
  rw [← hpid]
  exact h.directories p hp hkind (.inr hpre)

/-- **The place of an entry is free when its turn comes.** -/
theorem Stage.free (h : Stage v base first pre files state) (hid : e.id ≠ 1) (node : FsNode) :
    ¬Objects v pre files (entryPath v e) node := by
  have hmem := mem_of_split hsplit
  rintro (⟨e', he', hdone, -, hpath, -⟩ | ⟨f, hf, hpath, -⟩)
  · obtain rfl := hv.injective e hmem e' he' hpath
    exact hdone.elim hid (notMem_of_split hv hsplit)
  · exact (h.prepared f hf).ne_entry hv hmem hpath

/-- **So is the place of a temporary file for it.** -/
theorem Stage.temp_free (h : Stage v base first pre files state) {pending : PendingFile}
    (hnew : Prepared v base (e, pending)) (node : FsNode) :
    ¬Objects v pre files (heldAt v (e, pending)) node := by
  rintro (⟨e', he', -, -, hpath, -⟩ | ⟨f, hf, hpath, -⟩)
  · exact hnew.ne_entry hv he' hpath.symm
  · have hold := h.prepared f hf
    have heq : f.1 = e :=
      hv.ids f.1 hold.mem e hnew.mem (hnew.eq_of_heldAt hold hpath).symm
    -- the files that are pending belong to entries that have had their turn
    have hpre : f.1 ∈ pre.filter Entry.isFile := by
      rw [← h.entries]
      exact List.mem_map_of_mem hf
    exact notMem_of_split hv hsplit (heq ▸ List.mem_of_mem_filter hpre)

omit hv hsplit in
theorem objects_root (he : e ∈ v.entries.values) (hid : e.id = 1) (q : Path) (node : FsNode) :
    Objects v pre files q node ↔ Objects v (pre ++ [e]) files q node := by
  have hdone : ∀ e' ∈ v.entries.values, (e'.id = 1 ∨ e' ∈ pre) ↔ (e'.id = 1 ∨ e' ∈ pre ++ [e]) := by
    intro e' he'
    rw [List.mem_append, List.mem_singleton, ← or_assoc]
    refine (or_iff_left_of_imp ?_).symm
    rintro rfl
    exact .inl hid
  refine or_congr_left (exists_congr fun e' => and_congr_right fun he' => ?_)
  rw [hdone e' he']

omit hv hsplit in
theorem objects_directory (he : e ∈ v.entries.values) (hkind : e.kind = .directory)
    (q : Path) (node : FsNode) :
    Objects v pre files q node ∨ q = entryPath v e ∧ node = .directory ↔
      Objects v (pre ++ [e]) files q node := by
  constructor
  · rintro ((⟨e', he', hdone, hrest⟩ | hfile) | ⟨hq, hnode⟩)
    · exact .inl ⟨e', he', hdone.imp id (List.mem_append_left _), hrest⟩
    · exact .inr hfile
    · exact .inl ⟨e, he, .inr (List.mem_append_right _ List.mem_cons_self), hkind, hq, hnode⟩
  · rintro (⟨e', he', hdone, hk, hq, hnode⟩ | hfile)
    · rcases hdone with hid | hdone
      · exact .inl (.inl ⟨e', he', .inl hid, hk, hq, hnode⟩)
      · rcases List.mem_append.mp hdone with hdone | hdone
        · exact .inl (.inl ⟨e', he', .inr hdone, hk, hq, hnode⟩)
        · obtain rfl := List.mem_singleton.mp hdone
          exact .inr ⟨hq, hnode⟩
    · exact .inl (.inr hfile)

omit hv hsplit in
theorem objects_file {f : Entry × PendingFile} (hkind : e.kind = .file) (q : Path)
    (node : FsNode) :
    Objects v pre files q node ∨ q = heldAt v f ∧ node = .file (.own f.2.file) ↔
      Objects v (pre ++ [e]) (files ++ [f]) q node := by
  constructor
  · rintro ((⟨e', he', hdone, hrest⟩ | ⟨f', hf', hrest⟩) | hnew)
    · exact .inl ⟨e', he', hdone.imp id (List.mem_append_left _), hrest⟩
    · exact .inr ⟨f', List.mem_append_left _ hf', hrest⟩
    · exact .inr ⟨f, List.mem_append_right _ List.mem_cons_self, hnew⟩
  · rintro (⟨e', he', hdone, hk, hrest⟩ | ⟨f', hf', hrest⟩)
    · rcases hdone with hid | hdone
      · exact .inl (.inl ⟨e', he', .inl hid, hk, hrest⟩)
      · rcases List.mem_append.mp hdone with hdone | hdone
        · exact .inl (.inl ⟨e', he', .inr hdone, hk, hrest⟩)
        · obtain rfl := List.mem_singleton.mp hdone
          rw [hkind] at hk
          cases hk
    · rcases List.mem_append.mp hf' with hf' | hf'
      · exact .inl (.inr ⟨f', hf', hrest⟩)
      · obtain rfl := List.mem_singleton.mp hf'
        exact .inr hrest

/-! ### The three cases of the loop -/

omit hsplit in
theorem Stage.skip (h : Stage v base first pre files state) (he : e ∈ v.entries.values)
    (hid : e.id = 1) : Stage v base first (pre ++ [e]) files state where
  staging := h.staging
  directories e' he' hkind hdone := by
    refine h.directories e' he' hkind ?_
    rcases hdone with hid' | hdone
    · exact .inl hid'
    · rcases List.mem_append.mp hdone with hdone | hdone
      · exact .inr hdone
      · exact .inl (List.mem_singleton.mp hdone ▸ hid)
  pending := h.pending
  entries := by
    have hfile : e.isFile = false := Entry.not_isFile_iff.mpr (hv.root_path e he hid).1
    rw [h.entries, List.filter_append, List.filter_singleton, hfile]
    exact (List.append_nil _).symm
  numbers := h.numbers
  prepared := h.prepared

omit hsplit in
theorem Stage.directory (h : Stage v base first pre files state) (he : e ∈ v.entries.values)
    (hkind : e.kind = .directory) {root' : SafeRoot} (hroot : root' = { state.1 with
      directories := state.1.directories.insert e.id (entryPath v e) }) :
    Stage v base first (pre ++ [e]) files (root', state.2) := by
  subst hroot
  refine
    { staging := h.staging, pending := h.pending, entries := ?_, numbers := h.numbers
      prepared := h.prepared, directories := fun e' he' hkind' hdone => ?_ }
  · by_cases hid : e'.id = e.id
    · obtain rfl := hv.ids e' he' e he hid
      exact AList.lookup_insert _
    · refine (AList.lookup_insert_ne hid).trans (h.directories e' he' hkind' ?_)
      refine hdone.imp id fun hdone => ?_
      rcases List.mem_append.mp hdone with hdone | hdone
      · exact hdone
      · exact absurd (congrArg Entry.id (List.mem_singleton.mp hdone)) hid
  · have hfile : e.isFile = false := Entry.not_isFile_iff.mpr hkind
    rw [h.entries, List.filter_append, List.filter_singleton, hfile]
    exact (List.append_nil _).symm

omit hv hsplit in
theorem Stage.file (h : Stage v base first pre files state) (hkind : e.kind = .file)
    {pending : PendingFile} (hnew : Prepared v base (e, pending))
    (hnumber : pending.file = first + files.length) :
    Stage v base first (pre ++ [e]) (files ++ [(e, pending)]) (state.1, state.2 ++ [pending]) where
  staging := h.staging
  directories e' he' hk hdone := by
    refine h.directories e' he' hk (hdone.imp id fun hdone => ?_)
    rcases List.mem_append.mp hdone with hdone | hdone
    · exact hdone
    · rw [List.mem_singleton.mp hdone, hkind] at hk
      cases hk
  pending := by
    show state.2 ++ [pending] = _
    rw [h.pending, List.map_append]
    rfl
  entries := by
    rw [List.map_append, List.filter_append, h.entries, List.filter_singleton,
      Entry.isFile_iff.mpr hkind]
    rfl
  numbers := by
    rw [List.map_append, h.numbers, List.length_append, List.length_singleton,
      List.range'_1_concat, ← hnumber]
    rfl
  prepared f hf := by
    rcases List.mem_append.mp hf with hf | hf
    · exact h.prepared f hf
    · exact List.mem_singleton.mp hf ▸ hnew

end Turn

/-! ## The loop -/

/-- The invariant of the loop: the description of memory and of the staging directory. -/
def Reached (R : Reader Key) (opened : OpenedFile) (container : Nat) (base : Path) (first : Nat)
    (pre : List Entry) (state : SafeRoot × List PendingFile) (w : World) : Prop :=
  ∃ files, Stage opened.index base first pre files state ∧
    Building R opened container base files (Objects opened.index pre files)
      (first + files.length) w

/-- **One iteration of the loop**: no parent is missing, and no name is taken. -/
theorem holds_extractEntry {ω : IterOrder} {e : Entry} (hv : Extractable opened.index)
    (hnames : ∀ e ∈ opened.index.entries.values, e.id ≠ 1 → validateName .unix e.name = .ok ())
    (hbatch : 1 ≤ batchSize) (hfile : opened.file = .file (.other container))
    (hsplit : extractionOrder ω opened.index = pre ++ e :: post) :
    Holds (Answers faults opened.index) (Reached R opened container base first pre state)
      (extractEntry R .unix opened progress batchSize state e)
      (Reached R opened container base first (pre ++ [e]))
      (Interrupted R opened container faults) := by
  have hA : ∀ i, Answers faults opened.index i → Faulty faults i := fun i hi => hi.faulty
  have ht : Tolerates faults (Answers faults opened.index)
      (Interrupted R opened container faults) := tolerates_interrupted hA
  have he := mem_of_split hsplit
  refine .exists fun files => .assume fun hstage => ?_
  unfold extractEntry
  refine (holds_check ht Building.stable).bind fun _ => ?_
  split
  · rename_i hid
    exact .pure fun w hw => ⟨files, hstage.skip hv he hid, hw.congr (objects_root he hid)⟩
  · rename_i hid
    obtain ⟨parent, hlookup, hdir, hpath⟩ := hstage.parent hv hsplit hid
    have hfree : ∀ node, ¬Objects opened.index pre files (parent ++ [.utf8 e.name]) node := by
      rw [← hpath]
      exact hstage.free hv hsplit hid
    have hbase := hstage.staging
    subst hbase
    split
    · rename_i hkind
      refine (holds_createDirectory ht (hnames e he hid) hlookup hdir hfree).bind
        fun root' => .assume fun hroot => .pure fun w hw => ?_
      rw [← hpath] at hroot hw
      exact ⟨files, hstage.directory hv he hkind hroot, hw.congr (objects_directory he hkind)⟩
    · rename_i hkind
      have hparent : parent = (entryPath opened.index e).dropLast := by
        rw [hpath, List.dropLast_concat]
      -- a temporary name that is no entry's makes a file for which there is room
      have hnew : ∀ r, (∀ e' ∈ opened.index.entries.values,
          SafeRoot.tempName e.id r ≠ .utf8 e'.name) → Prepared opened.index state.1.staging
            (e, ⟨state.1.staging ++ parent, SafeRoot.tempName e.id r, .utf8 e.name,
              first + files.length⟩) := fun r hr =>
        { mem := he, kind := hkind, parent := by rw [hparent], final := rfl, temp := ⟨r, rfl⟩
          fresh := hr }
      have htemp : ∀ r, (∀ e' ∈ opened.index.entries.values,
          SafeRoot.tempName e.id r ≠ .utf8 e'.name) → ∀ node,
            ¬Objects opened.index pre files (parent ++ [SafeRoot.tempName e.id r]) node := by
        intro r hr
        rw [hparent]
        exact hstage.temp_free hv hsplit (hnew r hr)
      refine (holds_extractFile hbatch hfile hA (fun i hi => hi.fresh e he) he (hnames e he hid)
        hlookup hdir hfree htemp hstage.older).bind fun pending => .exists fun r =>
          .assume fun ⟨hr, hpending⟩ => .pure fun w hw => ?_
      have hprepared : Prepared opened.index state.1.staging (e, pending) := hpending ▸ hnew r hr
      have hnumber : pending.file = first + files.length := congrArg PendingFile.file hpending
      have hbuilding : Building R opened container state.1.staging files
          (fun q node => Objects opened.index pre files q node ∨
            q = heldAt opened.index (e, pending) ∧ node = .file (.own pending.file))
          (first + files.length + 1) w := by
        rw [heldAt, ← hparent, hpending]
        exact hw.building
      refine ⟨_, hstage.file hkind hprepared hnumber, ?_⟩
      refine { hbuilding.congr (objects_file (f := (e, pending)) hkind) with
        filled := fun f hf => ?_, issued := ?_ }
      · rcases List.mem_append.mp hf with hf | hf
        · exact hbuilding.filled f hf
        · rw [List.mem_singleton.mp hf, hnumber]
          exact hw.written
      · rw [hbuilding.issued, List.length_append]
        rfl

end CipherFS.Extract
