import CipherFS.Core.V2.IndexTree

/-!
# The read-only view — nodes and directories

`ReadOnlyV2Fs` and its wrapper `ReadOnlyFs`: metadata, lookup by name and
directory listings over a validated index.
-/

namespace CipherFS.ReadOnlyFs

open V2

inductive NodeKind where
  | file
  | directory
deriving DecidableEq, Repr

structure Node where
  id : UInt64
  parentId : UInt64
  name : String
  kind : NodeKind
  size : UInt64
deriving DecidableEq

/-- `Node::from(&Entry)`. -/
def Node.ofEntry (entry : Entry) : Node where
  id := entry.id
  parentId := entry.parentId
  name := entry.name
  kind := if entry.kind = .file then .file else .directory
  size := entry.size

@[simp] theorem Node.ofEntry_id (e : Entry) : (Node.ofEntry e).id = e.id := rfl

theorem Node.kind_ofEntry_eq_file {e : Entry} :
    (Node.ofEntry e).kind = .file ↔ e.kind = .file := by
  cases h : e.kind <;> simp [Node.ofEntry, h]

inductive FsErrorKind where
  | notFound
  | notDirectory
  | isDirectory
  | integrity
deriving DecidableEq, Repr

structure FsError where
  kind : FsErrorKind
  source : Option Error
deriving DecidableEq, Repr

abbrev FsResult (α : Type) := Except FsError α

/-- `FsError::semantic`. -/
def FsError.semantic (kind : FsErrorKind) : FsError := ⟨kind, none⟩

/-- `FsError::integrity`. -/
def FsError.integrity (error : Error) : FsError := ⟨.integrity, some error⟩

/-- The error as `anyhow` shows it. -/
def FsError.toError (e : FsError) : Error :=
  match e.source, e.kind with
  | some source, _ => source
  | none, .notFound => ⟨.message "Node not found", []⟩
  | none, .notDirectory => ⟨.message "Node is not a directory", []⟩
  | none, .isDirectory => ⟨.message "Node is a directory", []⟩
  | none, .integrity => ⟨.message "Encrypted data failed validation", []⟩

/-- `?` from `FsError` into `anyhow::Result`. -/
def toResult {α : Type} (r : FsResult α) : Result α :=
  match r with
  | .ok a => .ok a
  | .error e => .error e.toError

/-- `ReadOnlyV2Fs::metadata`. -/
def metadata (index : ValidatedIndex) (id : UInt64) : FsResult Entry :=
  match index.entries.lookup id with
  | some entry => .ok entry
  | none => .error (.semantic .notFound)

/-- The children of a directory in the order of the children map. -/
def childEntries (index : ValidatedIndex) (id : UInt64) : List Entry :=
  ((index.children.lookup id).getD []).filterMap index.entries.lookup

/-- `ReadOnlyV2Fs::lookup`. -/
def lookup (index : ValidatedIndex) (parent : UInt64) (name : String) : FsResult Entry :=
  match (index.children.lookup parent).bind fun children =>
      children.findSome? fun id => (index.entries.lookup id).filter (·.name = name) with
  | some entry => .ok entry
  | none => .error (.semantic .notFound)

/-- The order of `ReadOnlyFs::read_dir`: by name, then by id. -/
def nodeLe (left right : Node) : Bool :=
  left.name < right.name ∨ left.name = right.name ∧ left.id ≤ right.id

/-- `ReadOnlyFs::read_dir`. -/
def readDir (index : ValidatedIndex) (id : UInt64) : FsResult (List Node) := do
  let entry ← metadata index id
  if entry.kind ≠ .directory then .error (.semantic .notDirectory)
  else .ok (((childEntries index id).map Node.ofEntry).mergeSort nodeLe)

/-! ## Listings of an accepted index -/

variable {W : Type} {os : Platform} {header : Header W} {es : List Entry}

theorem metadata_eq_ok {index : ValidatedIndex} {id : UInt64} {e : Entry} :
    metadata index id = .ok e ↔ index.entries.lookup id = some e := by
  unfold metadata
  split <;> simp_all

/-- The nodes below an id, as `readDir` orders them. -/
def childNodes (es : List Entry) (id : UInt64) : List Node :=
  ((childEntries (indexOf es) id).map Node.ofEntry).mergeSort nodeLe

theorem childEntries_indexOf (es : List Entry) (id : UInt64) :
    childEntries (indexOf es) id = (childIds es id).filterMap (indexOf es).entries.lookup := by
  rw [childEntries]
  congr 1
  exact scanOf_children es id

theorem mem_childEntries (h : AcceptedIndex os header es) {id : UInt64} {e : Entry} :
    e ∈ childEntries (indexOf es) id ↔ e ∈ es ∧ e.id ≠ 1 ∧ e.parentId = id := by
  rw [childEntries_indexOf, List.mem_filterMap]
  constructor
  · rintro ⟨i, hi, hlook⟩
    obtain ⟨he, hid⟩ := h.lookup_indexOf.mp hlook
    obtain ⟨e', he', hid', h1, hp⟩ := AcceptedIndex.mem_childIds.mp hi
    obtain rfl : e' = e := h.eq_of_id_eq he' he (hid'.trans hid.symm)
    exact ⟨he, h1, hp⟩
  · rintro ⟨he, h1, hp⟩
    exact ⟨e.id, AcceptedIndex.mem_childIds.mpr ⟨e, he, rfl, h1, hp⟩, h.lookup_of_mem he⟩

theorem map_id_childEntries (h : AcceptedIndex os header es) (id : UInt64) :
    (childEntries (indexOf es) id).map Entry.id = childIds es id := by
  rw [childEntries_indexOf]
  have hall : ∀ i ∈ childIds es id, ∃ e, (indexOf es).entries.lookup i = some e ∧ e.id = i := by
    intro i hi
    obtain ⟨e, he, rfl, -, -⟩ := AcceptedIndex.mem_childIds.mp hi
    exact ⟨e, h.lookup_of_mem he, rfl⟩
  revert hall
  induction childIds es id with
  | nil => intro _; rfl
  | cons i rest ih =>
      intro hall
      obtain ⟨e, hlook, hid⟩ := hall i List.mem_cons_self
      rw [List.filterMap_cons, hlook, List.map_cons, hid,
        ih fun j hj => hall j (List.mem_cons_of_mem _ hj)]

theorem mem_childNodes (h : AcceptedIndex os header es) {id : UInt64} {n : Node} :
    n ∈ childNodes es id ↔ ∃ e ∈ es, e.id ≠ 1 ∧ e.parentId = id ∧ Node.ofEntry e = n := by
  rw [childNodes, List.mem_mergeSort, List.mem_map]
  constructor
  · rintro ⟨e, he, rfl⟩
    obtain ⟨hmem, h1, hp⟩ := (mem_childEntries h).mp he
    exact ⟨e, hmem, h1, hp, rfl⟩
  · rintro ⟨e, hmem, h1, hp, rfl⟩
    exact ⟨e, (mem_childEntries h).mpr ⟨hmem, h1, hp⟩, rfl⟩

theorem map_id_childNodes_perm (h : AcceptedIndex os header es) (id : UInt64) :
    ((childNodes es id).map Node.id).Perm (childIds es id) := by
  rw [← map_id_childEntries h id]
  have hsort : ((childNodes es id).map Node.id).Perm
      (((childEntries (indexOf es) id).map Node.ofEntry).map Node.id) :=
    (List.mergeSort_perm _ _).map _
  rwa [List.map_map] at hsort

/-- The listings give the children of the tree, each once. -/
theorem lists_childNodes (h : AcceptedIndex os header es) :
    h.tree.Lists fun id => (childNodes es id).map Node.id where
  nodup p _ := (map_id_childNodes_perm h p).nodup_iff.mpr (h.nodup_childIds p)
  mem p hp x := by
    rw [(map_id_childNodes_perm h p).mem_iff]
    exact h.lists_childIds.mem p hp x

/-- Listing a directory entry succeeds. -/
theorem readDir_directory (h : AcceptedIndex os header es) {e : Entry} (he : e ∈ es)
    (hk : e.kind = .directory) : readDir (indexOf es) e.id = .ok (childNodes es e.id) := by
  have hmeta : metadata (indexOf es) e.id = .ok e := metadata_eq_ok.mpr (h.lookup_of_mem he)
  rw [readDir, hmeta, Result.ok_bind, if_neg (by simp [hk]), childNodes]

theorem childNodes_file (h : AcceptedIndex os header es) {e : Entry} (he : e ∈ es)
    (hk : e.kind = .file) : childNodes es e.id = [] := by
  rw [List.eq_nil_iff_forall_not_mem]
  intro n hn
  obtain ⟨c, hc, h1, hp, -⟩ := (mem_childNodes h).mp hn
  have hmem : c.id ∈ childIds es e.id := AcceptedIndex.mem_childIds.mpr ⟨c, hc, rfl, h1, hp⟩
  rw [h.childIds_eq_nil_of_file he hk] at hmem
  cases hmem

end CipherFS.ReadOnlyFs
