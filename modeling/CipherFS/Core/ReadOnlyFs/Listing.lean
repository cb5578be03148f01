import CipherFS.Framework.StableSort
import CipherFS.Core.ReadOnlyFs.Nodes
import CipherFS.Core.V2.ChunkLayout

/-!
# Lookup, listing and metadata

The three ways to a node go through two maps that the validator builds in one
pass. They agree: a name is looked up exactly when it is listed, and what either
gives is what the metadata of its id says.
-/

namespace CipherFS.ReadOnlyFs

open V2

variable {W : Type} {os : Platform} {header : Header W} {es : List Entry} {parent : UInt64}
  {name : String} {e e' : Entry}

/-- `ReadOnlyFs::metadata`. -/
def nodeMetadata (index : ValidatedIndex) (id : UInt64) : FsResult Node :=
  (metadata index id).map Node.ofEntry

/-- `ReadOnlyFs::lookup`. -/
def nodeLookup (index : ValidatedIndex) (parent : UInt64) (name : String) : FsResult Node :=
  (lookup index parent name).map Node.ofEntry

/-! ## Lookup -/

/-- Two siblings of one name are one entry. -/
theorem eq_of_place (h : AcceptedIndex os header es) (he : e ∈ es) (he' : e' ∈ es)
    (h1 : e.id ≠ 1) (h1' : e'.id ≠ 1) (hplace : e.place = e'.place) : e = e' :=
  List.inj_on_of_nodup_map h.siblings (List.mem_filter.mpr ⟨he, decide_eq_true h1⟩)
    (List.mem_filter.mpr ⟨he', decide_eq_true h1'⟩) hplace

/-- The search of `lookup`, on the children as a list. -/
theorem lookup_eq_findSome? (es : List Entry) (parent : UInt64) (name : String) :
    lookup (indexOf es) parent name =
      match (childIds es parent).findSome? fun id =>
        ((indexOf es).entries.lookup id).filter (·.name = name) with
      | some entry => .ok entry
      | none => .error (.semantic .notFound) := by
  have hlook : (indexOf es).children.lookup parent = (scanOf es).children.lookup parent := rfl
  rw [lookup, hlook, ← scanOf_children]
  cases (scanOf es).children.lookup parent <;> rfl

/-- **A name is looked up exactly when a child has it.** -/
theorem lookup_eq_ok (h : AcceptedIndex os header es) :
    lookup (indexOf es) parent name = .ok e ↔
      e ∈ es ∧ e.id ≠ 1 ∧ e.parentId = parent ∧ e.name = name := by
  have hsound : ∀ {e : Entry}, ((childIds es parent).findSome? fun id =>
      ((indexOf es).entries.lookup id).filter (·.name = name)) = some e →
      e ∈ es ∧ e.id ≠ 1 ∧ e.parentId = parent ∧ e.name = name := by
    intro e hfound
    obtain ⟨id, hid, hsome⟩ := List.exists_of_findSome?_eq_some hfound
    obtain ⟨hlook, hname⟩ := Option.filter_eq_some_iff.mp hsome
    obtain ⟨hmem, rfl⟩ := h.lookup_indexOf.mp hlook
    obtain ⟨e', he', hid', h1, hp⟩ := AcceptedIndex.mem_childIds.mp hid
    obtain rfl := h.eq_of_id_eq he' hmem hid'
    exact ⟨hmem, h1, hp, of_decide_eq_true hname⟩
  rw [lookup_eq_findSome?]
  cases hfound : (childIds es parent).findSome? fun id =>
      ((indexOf es).entries.lookup id).filter (·.name = name) with
  | some e' =>
      obtain ⟨hmem', h1', hp', hn'⟩ := hsound hfound
      rw [Except.ok.injEq]
      constructor
      · rintro rfl
        exact ⟨hmem', h1', hp', hn'⟩
      · rintro ⟨hmem, h1, rfl, rfl⟩
        exact eq_of_place h hmem' hmem h1' h1 (Prod.ext hp' hn')
  | none =>
      refine iff_of_false nofun ?_
      rintro ⟨hmem, h1, rfl, rfl⟩
      rw [List.findSome?_eq_none_iff] at hfound
      have hnone := hfound e.id (AcceptedIndex.mem_childIds.mpr ⟨e, hmem, rfl, h1, rfl⟩)
      rw [h.lookup_of_mem hmem] at hnone
      simp at hnone

theorem lookup_eq_error {index : ValidatedIndex} {err : FsError}
    (h : lookup index parent name = .error err) : err = .semantic .notFound := by
  unfold lookup at h
  split at h
  · cases h
  · exact (Except.error.inj h).symm

/-! ## Listings -/

/-- A listing is in strictly increasing order of the names. -/
theorem childNodes_sorted (h : AcceptedIndex os header es) (id : UInt64) :
    (childNodes es id).Pairwise fun a b => a.name < b.name := by
  have hsorted : (childNodes es id).Pairwise fun a b => nodeLe a b = true :=
    List.pairwise_mergeSort (StableSort.keys_trans Node.name Node.id)
      (StableSort.keys_total Node.name Node.id) _
  have hids : (childNodes es id).Pairwise fun a b => a.id ≠ b.id :=
    List.pairwise_map.mp ((map_id_childNodes_perm h id).nodup_iff.mpr (h.nodup_childIds id))
  refine (List.pairwise_iff_forall_sublist.mpr fun {a b} hab => ?_)
  have hle := List.pairwise_iff_forall_sublist.mp hsorted hab
  have hne := List.pairwise_iff_forall_sublist.mp hids hab
  rw [nodeLe, decide_eq_true_eq] at hle
  refine hle.resolve_right ?_
  rintro ⟨hname, -⟩
  refine hne ?_
  have ha : a ∈ childNodes es id := hab.subset List.mem_cons_self
  have hb : b ∈ childNodes es id := hab.subset (List.mem_cons_of_mem _ List.mem_cons_self)
  obtain ⟨ea, hea, ha1, hap, rfl⟩ := (mem_childNodes h).mp ha
  obtain ⟨eb, heb, hb1, hbp, rfl⟩ := (mem_childNodes h).mp hb
  exact congrArg Entry.id (eq_of_place h hea heb ha1 hb1 (Prod.ext (hap.trans hbp.symm) hname))

theorem readDir_eq_ok {index : ValidatedIndex} {id : UInt64} {ns : List Node} :
    readDir index id = .ok ns ↔ (∃ e, index.entries.lookup id = some e ∧ e.kind = .directory) ∧
      ns = ((childEntries index id).map Node.ofEntry).mergeSort nodeLe := by
  rw [readDir, Result.bind_eq_ok]
  simp only [metadata_eq_ok]
  constructor
  · rintro ⟨e, he, hns⟩
    split at hns
    · cases hns
    · rename_i hk
      exact ⟨⟨e, he, not_not.mp hk⟩, (Except.ok.inj hns).symm⟩
  · rintro ⟨⟨e, he, hk⟩, rfl⟩
    exact ⟨e, he, if_neg (not_not.mpr hk)⟩

/-! ## Agreement -/

/-- What is looked up is listed, and the other way round. -/
theorem nodeLookup_eq_ok (h : AcceptedIndex os header es) {n : Node} :
    nodeLookup (indexOf es) parent name = .ok n ↔
      ∃ ns, readDir (indexOf es) parent = .ok ns ∧ n ∈ ns ∧ n.name = name := by
  have hnode : nodeLookup (indexOf es) parent name = .ok n ↔
      ∃ e, lookup (indexOf es) parent name = .ok e ∧ Node.ofEntry e = n := by
    rw [nodeLookup]
    cases lookup (indexOf es) parent name with
    | ok e => simp [Except.map]
    | error err => simp [Except.map]
  rw [hnode]
  constructor
  · rintro ⟨e, hlook, rfl⟩
    obtain ⟨hmem, h1, rfl, rfl⟩ := (lookup_eq_ok h).mp hlook
    obtain ⟨p, hp, hpid, hk⟩ := h.parent_entry hmem
    refine ⟨childNodes es e.parentId, ?_, (mem_childNodes h).mpr ⟨e, hmem, h1, rfl, rfl⟩, rfl⟩
    rw [← hpid]
    exact readDir_directory h hp hk
  · rintro ⟨ns, hread, hn, rfl⟩
    obtain ⟨-, rfl⟩ := readDir_eq_ok.mp hread
    obtain ⟨e, hmem, h1, hp, rfl⟩ := (mem_childNodes h).mp hn
    exact ⟨e, (lookup_eq_ok h).mpr ⟨hmem, h1, hp, rfl⟩, rfl⟩

theorem nodeMetadata_of_mem (h : AcceptedIndex os header es) (he : e ∈ es) :
    nodeMetadata (indexOf es) e.id = .ok (Node.ofEntry e) := by
  rw [nodeMetadata, metadata_eq_ok.mpr (h.lookup_of_mem he)]
  rfl

/-- **Lookup, listing and metadata agree.** A name is looked up exactly when it is
listed, and not found otherwise; the listed nodes are what their metadata say;
a listing has all and only the entries in its directory, the root apart, in
strictly increasing order of the names. -/
theorem lookup_listing_metadata {ω : IterOrder} {index : Index} {v : ValidatedIndex}
    (hvalid : validateIndex ω os header index = .ok v) (parent : UInt64) (name : String) :
    (∀ n, nodeLookup v parent name = .ok n ↔
      ∃ ns, readDir v parent = .ok ns ∧ n ∈ ns ∧ n.name = name) ∧
    (∀ ns n n', readDir v parent = .ok ns → n ∈ ns → n' ∈ ns → n.name = name → n'.name = name →
      n = n') ∧
    ((∀ n, nodeLookup v parent name ≠ .ok n) →
      nodeLookup v parent name = .error (.semantic .notFound)) ∧
    (∀ n, nodeLookup v parent name = .ok n → nodeMetadata v n.id = .ok n ∧ n.parentId = parent) ∧
    (∀ ns, readDir v parent = .ok ns →
      (ns.Pairwise fun a b => a.name < b.name) ∧
      (∀ n, n ∈ ns ↔ ∃ e ∈ index.entries, e.id ≠ 1 ∧ e.parentId = parent ∧ Node.ofEntry e = n) ∧
      ∀ n ∈ ns, nodeMetadata v n.id = .ok n ∧ n.parentId = parent) ∧
    ((∃ ns, readDir v parent = .ok ns) ↔
      ∃ e ∈ index.entries, e.id = parent ∧ e.kind = .directory) := by
  obtain ⟨h, rfl⟩ := validateIndex_eq_ok.mp hvalid
  have hnode : ∀ {n : Node}, n ∈ childNodes index.entries parent →
      nodeMetadata (indexOf index.entries) n.id = .ok n ∧ n.parentId = parent := by
    intro n hn
    obtain ⟨e, hmem, -, hp, rfl⟩ := (mem_childNodes h).mp hn
    exact ⟨nodeMetadata_of_mem h hmem, hp⟩
  refine ⟨fun n => nodeLookup_eq_ok h, ?_, fun hnone => ?_, fun n hn => ?_, fun ns hns => ?_, ?_⟩
  · intro ns n n' hns hn hn' hname hname'
    obtain ⟨-, rfl⟩ := readDir_eq_ok.mp hns
    obtain ⟨e, hmem, h1, hp, rfl⟩ := (mem_childNodes h).mp hn
    obtain ⟨e', hmem', h1', hp', rfl⟩ := (mem_childNodes h).mp hn'
    exact congrArg Node.ofEntry (eq_of_place h hmem hmem' h1 h1'
      (Prod.ext (hp.trans hp'.symm) (hname.trans hname'.symm)))
  · cases hlook : lookup (indexOf index.entries) parent name with
    | ok e =>
        refine absurd ?_ (hnone (Node.ofEntry e))
        rw [nodeLookup, hlook]
        rfl
    | error err =>
        rw [nodeLookup, hlook, lookup_eq_error hlook]
        rfl
  · obtain ⟨ns, hns, hmem, -⟩ := (nodeLookup_eq_ok h).mp hn
    obtain ⟨-, rfl⟩ := readDir_eq_ok.mp hns
    exact hnode hmem
  · obtain ⟨-, rfl⟩ := readDir_eq_ok.mp hns
    exact ⟨childNodes_sorted h parent, fun n => mem_childNodes h, fun n hn => hnode hn⟩
  · constructor
    · rintro ⟨ns, hns⟩
      obtain ⟨⟨e, hlook, hk⟩, -⟩ := readDir_eq_ok.mp hns
      obtain ⟨hmem, hid⟩ := h.lookup_indexOf.mp hlook
      exact ⟨e, hmem, hid, hk⟩
    · rintro ⟨e, hmem, rfl, hk⟩
      exact ⟨_, readDir_directory h hmem hk⟩

theorem lookup_listing_metadata_sample :
    nodeLookup (indexOf sampleIndex.entries) 1 "docs" = .ok (Node.ofEntry sampleDirectory) := by
  have hvalid : validateIndex .stored .unix (sampleHeader ()) sampleIndex =
      .ok (indexOf sampleIndex.entries) := validateIndex_eq_ok.mpr ⟨sampleIndex_accepted (), rfl⟩
  refine ((lookup_listing_metadata hvalid 1 "docs").1 _).mpr
    ⟨_, readDir_directory (e := sampleRoot) (sampleIndex_accepted ()) (by simp [sampleIndex]) rfl,
      ?_, rfl⟩
  exact (mem_childNodes (sampleIndex_accepted ())).mpr
    ⟨sampleDirectory, by simp [sampleIndex], by decide, rfl, rfl⟩

/-- The root is an entry in itself and is not listed there. -/
theorem root_not_listed : sampleRoot ∈ sampleIndex.entries ∧ sampleRoot.parentId = 1 ∧
    ∃ ns, readDir (indexOf sampleIndex.entries) 1 = .ok ns ∧ Node.ofEntry sampleRoot ∉ ns := by
  have haccepted := sampleIndex_accepted ()
  refine ⟨by simp [sampleIndex], rfl, _, readDir_directory (e := sampleRoot) haccepted
    (by simp [sampleIndex]) rfl, fun hmem => ?_⟩
  obtain ⟨e, he, h1, -, heq⟩ := (mem_childNodes haccepted).mp hmem
  exact h1 (congrArg Node.id heq)

end CipherFS.ReadOnlyFs
