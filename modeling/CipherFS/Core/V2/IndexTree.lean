import CipherFS.Framework.RankedTree
import CipherFS.Core.V2.Accepted

/-!
# The tree inside an accepted index

The validator checks no reachability; it checks that each parent is one level
up. An accepted list of entries is a `RankedTree` on its ids, ranked by depth,
and `childIds` lists its children.
-/

namespace CipherFS.V2

variable {W : Type}

/-- The parent an index records for an id. -/
def ValidatedIndex.parentOf (v : ValidatedIndex) (id : UInt64) : UInt64 :=
  match v.entries.lookup id with
  | some e => e.parentId
  | none => id

/-- The depth an index records for an id. -/
def ValidatedIndex.depthOf (v : ValidatedIndex) (id : UInt64) : ℕ :=
  match v.entries.lookup id with
  | some e => e.depth.toNat
  | none => 0

/-- The name an index records for an id. -/
def ValidatedIndex.nameOf (v : ValidatedIndex) (id : UInt64) : String :=
  match v.entries.lookup id with
  | some e => e.name
  | none => ""

/-- The names on the way from the root to an entry. -/
def ValidatedIndex.pathTo (v : ValidatedIndex) (e : Entry) : List String :=
  RankedTree.trail v.parentOf v.nameOf e.depth.toNat e.id

/-- The entry `k` parent steps above an id. -/
def ValidatedIndex.ancestor (v : ValidatedIndex) : ℕ → UInt64 → Option Entry
  | 0, id => v.entries.lookup id
  | k + 1, id => (v.entries.lookup id).bind fun e => v.ancestor k e.parentId

theorem ValidatedIndex.ancestor_succ_of_lookup {v : ValidatedIndex} {k : ℕ} {id : UInt64}
    {e : Entry} (h : v.entries.lookup id = some e) :
    v.ancestor (k + 1) id = v.ancestor k e.parentId := by
  rw [ancestor, h]
  rfl

namespace AcceptedIndex

variable {os : Platform} {header : Header W} {es : List Entry}

theorem lookup_indexOf (h : AcceptedIndex os header es) {i : UInt64} {e : Entry} :
    (indexOf es).entries.lookup i = some e ↔ e ∈ es ∧ e.id = i :=
  scanOf_lookup h.ids

theorem lookup_of_mem (h : AcceptedIndex os header es) {e : Entry} (he : e ∈ es) :
    (indexOf es).entries.lookup e.id = some e :=
  h.lookup_indexOf.mpr ⟨he, rfl⟩

theorem eq_of_id_eq (h : AcceptedIndex os header es) {e e' : Entry} (he : e ∈ es)
    (he' : e' ∈ es) (hid : e.id = e'.id) : e = e' := by
  have h1 := h.lookup_of_mem he
  rw [hid, h.lookup_of_mem he'] at h1
  exact (Option.some.inj h1).symm

theorem parentOf_of_mem (h : AcceptedIndex os header es) {e : Entry} (he : e ∈ es) :
    (indexOf es).parentOf e.id = e.parentId := by
  rw [ValidatedIndex.parentOf, h.lookup_of_mem he]

theorem depthOf_of_mem (h : AcceptedIndex os header es) {e : Entry} (he : e ∈ es) :
    (indexOf es).depthOf e.id = e.depth.toNat := by
  rw [ValidatedIndex.depthOf, h.lookup_of_mem he]

/-- The root entry, in full. -/
theorem root_entry (h : AcceptedIndex os header es) {e : Entry} (he : e ∈ es)
    (hid : e.id = 1) : e.parentId = 1 ∧ e.depth = 0 ∧ e.kind = .directory ∧ e.name = "" := by
  have hr := (h.entries e he).root_or_name
  rwa [if_pos hid] at hr

/-- Every entry has a parent entry, and it is a directory. -/
theorem parent_entry (h : AcceptedIndex os header es) {e : Entry} (he : e ∈ es) :
    ∃ p ∈ es, p.id = e.parentId ∧ p.kind = .directory := by
  by_cases hid : e.id = 1
  · obtain ⟨hp, -, hk, -⟩ := h.root_entry he hid
    exact ⟨e, he, hid.trans hp.symm, hk⟩
  · obtain ⟨p, hp, hpid, hk, -⟩ := h.parents e he hid
    exact ⟨p, hp, hpid, hk⟩

/-- The ids of an accepted index as a tree ranked by depth. -/
def tree (h : AcceptedIndex os header es) : RankedTree UInt64 where
  nodes := { i | ∃ e ∈ es, e.id = i }
  root := 1
  parent := (indexOf es).parentOf
  rank := (indexOf es).depthOf
  root_mem := h.root
  parent_mem := by
    rintro _ ⟨e, he, rfl⟩
    obtain ⟨p, hp, hpid, -⟩ := h.parent_entry he
    exact ⟨p, hp, by rw [hpid, h.parentOf_of_mem he]⟩
  rank_root := by
    obtain ⟨r, hr, hid⟩ := h.root
    rw [← hid, h.depthOf_of_mem hr, (h.root_entry hr hid).2.1]
    rfl
  rank_parent := by
    rintro _ ⟨e, he, rfl⟩ hne
    obtain ⟨p, hp, hpid, -, hd⟩ := h.parents e he hne
    rw [h.parentOf_of_mem he, ← hpid, h.depthOf_of_mem hp, h.depthOf_of_mem he, hd]

theorem mem_childIds {es : List Entry} {p i : UInt64} :
    i ∈ childIds es p ↔ ∃ e ∈ es, e.id = i ∧ e.id ≠ 1 ∧ e.parentId = p := by
  simp only [childIds, List.mem_map, List.mem_filter, decide_eq_true_eq]
  constructor
  · rintro ⟨e, ⟨he, h1, hp⟩, hid⟩
    exact ⟨e, he, hid, h1, hp⟩
  · rintro ⟨e, he, hid, h1, hp⟩
    exact ⟨e, ⟨he, h1, hp⟩, hid⟩

theorem nodup_childIds (h : AcceptedIndex os header es) (p : UInt64) :
    (childIds es p).Nodup :=
  h.ids.sublist (List.filter_sublist.map _)

/-- The children lists are the children of the tree, each once. -/
theorem lists_childIds (h : AcceptedIndex os header es) : h.tree.Lists (childIds es) where
  nodup p _ := h.nodup_childIds p
  mem p _ x := by
    rw [mem_childIds]
    constructor
    · rintro ⟨e, he, rfl, h1, hp⟩
      exact ⟨⟨e, he, rfl⟩, h1, (h.parentOf_of_mem he).trans hp⟩
    · rintro ⟨⟨e, he, rfl⟩, h1, hp⟩
      exact ⟨e, he, rfl, h1, (h.parentOf_of_mem he).symm.trans hp⟩

/-- A file has no children: every parent is a directory. -/
theorem childIds_eq_nil_of_file (h : AcceptedIndex os header es) {e : Entry} (he : e ∈ es)
    (hk : e.kind = .file) : childIds es e.id = [] := by
  rw [List.eq_nil_iff_forall_not_mem]
  intro i hi
  obtain ⟨c, hc, -, -, hp⟩ := mem_childIds.mp hi
  obtain ⟨p, hpm, hpid, hdir⟩ := h.parent_entry hc
  rw [h.eq_of_id_eq hpm he (hpid.trans hp)] at hdir
  simp [hk] at hdir

theorem ancestor_eq_lookup (h : AcceptedIndex os header es) : ∀ (k : ℕ) {e : Entry}, e ∈ es →
    (indexOf es).ancestor k e.id = (indexOf es).entries.lookup (h.tree.parent^[k] e.id)
  | 0, e, he => rfl
  | k + 1, e, he => by
      obtain ⟨p, hp, hpid, -⟩ := h.parent_entry he
      have hpar : h.tree.parent e.id = p.id := (h.parentOf_of_mem he).trans hpid.symm
      rw [ValidatedIndex.ancestor_succ_of_lookup (h.lookup_of_mem he), ← hpid,
        h.ancestor_eq_lookup k hp, Function.iterate_succ_apply, hpar]

/-- Following parents from an entry reaches the root after exactly `depth` steps. -/
theorem ancestor_root_iff (h : AcceptedIndex os header es) {e : Entry} (he : e ∈ es) {k : ℕ}
    (hk : k ≤ e.depth.toNat) :
    ∃ a ∈ es, (indexOf es).ancestor k e.id = some a ∧ (a.id = 1 ↔ k = e.depth.toNat) := by
  have hnode : e.id ∈ h.tree.nodes := ⟨e, he, rfl⟩
  have hrank : h.tree.rank e.id = e.depth.toNat := h.depthOf_of_mem he
  obtain ⟨a, ha, haid⟩ := h.tree.iterate_mem hnode k
  refine ⟨a, ha, ?_, ?_⟩
  · rw [h.ancestor_eq_lookup k he, ← haid, h.lookup_of_mem ha]
  · rw [haid]
    constructor
    · intro hroot
      by_contra hne
      exact h.tree.iterate_ne_root hnode (by omega) hroot
    · rintro rfl
      rw [← hrank]
      exact h.tree.iterate_rank hnode

/-! ## Paths -/

theorem nameOf_of_mem (h : AcceptedIndex os header es) {e : Entry} (he : e ∈ es) :
    (indexOf es).nameOf e.id = e.name := by
  rw [ValidatedIndex.nameOf, h.lookup_of_mem he]

theorem pathTo_eq (h : AcceptedIndex os header es) {e : Entry} (he : e ∈ es) :
    (indexOf es).pathTo e = h.tree.path (indexOf es).nameOf e.id := by
  have hrank : h.tree.rank e.id = e.depth.toNat := h.depthOf_of_mem he
  rw [RankedTree.path, hrank]
  rfl

theorem pathTo_root (h : AcceptedIndex os header es) {e : Entry} (he : e ∈ es) (hid : e.id = 1) :
    (indexOf es).pathTo e = [] := by
  rw [h.pathTo_eq he, hid]
  exact h.tree.path_root

/-- An entry lies under its own name below its parent, which is less deep. -/
theorem pathTo_child (h : AcceptedIndex os header es) {e : Entry} (he : e ∈ es) (hid : e.id ≠ 1) :
    ∃ p ∈ es, p.id = e.parentId ∧ p.kind = .directory ∧ p.depth < e.depth ∧
      (indexOf es).pathTo e = (indexOf es).pathTo p ++ [e.name] := by
  obtain ⟨p, hp, hpid, hkind, hdepth⟩ := h.parents e he hid
  refine ⟨p, hp, hpid, hkind, UInt32.lt_iff_toNat_lt.mpr (by omega), ?_⟩
  have hparent : h.tree.parent e.id = p.id := (h.parentOf_of_mem he).trans hpid.symm
  rw [h.pathTo_eq he, h.pathTo_eq hp, h.tree.path_of_ne_root ⟨e, he, rfl⟩ hid, hparent,
    h.nameOf_of_mem he]

/-- No two entries have one path. -/
theorem pathTo_injective (h : AcceptedIndex os header es) {e e' : Entry} (he : e ∈ es)
    (he' : e' ∈ es) (heq : (indexOf es).pathTo e = (indexOf es).pathTo e') : e = e' := by
  have hdistinct : h.tree.Distinct (indexOf es).nameOf := by
    rintro _ ⟨a, ha, rfl⟩ _ ⟨b, hb, rfl⟩ hane hbne hparent hname
    have hpa : a.parentId = b.parentId :=
      (h.parentOf_of_mem ha).symm.trans (hparent.trans (h.parentOf_of_mem hb))
    rw [h.nameOf_of_mem ha, h.nameOf_of_mem hb] at hname
    have hab : a = b := List.inj_on_of_nodup_map h.siblings
      (List.mem_filter.mpr ⟨ha, decide_eq_true hane⟩)
      (List.mem_filter.mpr ⟨hb, decide_eq_true hbne⟩) (Prod.ext hpa hname)
    rw [hab]
  rw [h.pathTo_eq he, h.pathTo_eq he'] at heq
  exact h.eq_of_id_eq he he' (h.tree.path_injective hdistinct _ ⟨e, he, rfl⟩ _ ⟨e', he', rfl⟩ heq)

end AcceptedIndex

end CipherFS.V2
