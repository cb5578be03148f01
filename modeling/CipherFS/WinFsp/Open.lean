import CipherFS.Core.V2.ChunkLayout
import CipherFS.Core.ReadOnlyFs.Nodes

/-!
# The walk that opens a mount

`WinFspCipherFs::open` collects every node from the root down with `read_dir`:
one growing list and a cursor. On an accepted index the walk ends, succeeds and
has met every entry once, so its size sum cannot overflow either.
-/

namespace CipherFS.WinFsp

open V2 ReadOnlyFs

/-- The loop of `WinFspCipherFs::open`; `none` when the fuel runs out. -/
def openLoop (index : ValidatedIndex) : Nat → List Node → Nat → UInt64 →
    Option (Result (List Node × UInt64))
  | 0, _, _, _ => none
  | fuel + 1, nodes, cursor, totalSize =>
    match nodes[cursor]? with
    | none => some (.ok (nodes, totalSize))
    | some node =>
      match node.kind with
      | .directory =>
        match toResult (readDir index node.id) with
        | .ok children => openLoop index fuel (nodes ++ children) (cursor + 1) totalSize
        | .error e => some (.error e)
      | .file =>
        match checkedAdd totalSize node.size with
        | some totalSize => openLoop index fuel nodes (cursor + 1) totalSize
        | none => some (Result.bail "Mounted plaintext size overflow")

/-- The nodes and the total size that `WinFspCipherFs::open` collects. -/
def openNodes (index : ValidatedIndex) (fuel : Nat) : Option (Result (List Node × UInt64)) :=
  match toResult (metadata index 1) with
  | .ok root => openLoop index fuel [Node.ofEntry root] 0 0
  | .error e => some (.error e)

variable {W : Type} {os : Platform} {header : Header W} {es : List Entry}

/-- What a node adds to the total. -/
def nodeBytes (n : Node) : Nat := if n.kind = .file then n.size.toNat else 0

/-- The state of the walk: the frontier of the tree, carried by nodes of entries. -/
structure OpenInv (h : AcceptedIndex os header es) (nodes : List Node) (cursor : Nat)
    (totalSize : UInt64) : Prop where
  frontier : h.tree.Frontier (fun id => (childNodes es id).map Node.id) (nodes.map Node.id) cursor
  entries : ∀ n ∈ nodes, ∃ e ∈ es, Node.ofEntry e = n
  cursor_le : cursor ≤ nodes.length
  total : totalSize.toNat = ((nodes.take cursor).map nodeBytes).sum

theorem sum_nodeBytes (es : List Entry) : ((es.map Node.ofEntry).map nodeBytes).sum =
    (((es.filter Entry.isFile).map Entry.size).map UInt64.toNat).sum := by
  induction es with
  | nil => rfl
  | cons e rest ih =>
      rw [List.map_cons, List.map_cons, List.sum_cons, ih, List.filter_cons]
      by_cases hk : e.kind = .file
      · have hfile : e.isFile = true := Entry.isFile_iff.mpr hk
        rw [if_pos hfile, nodeBytes, if_pos (Node.kind_ofEntry_eq_file.mpr hk)]
        rfl
      · have hdir : ¬e.isFile = true := by rwa [Entry.isFile_iff]
        rw [if_neg hdir, nodeBytes, if_neg (by rwa [Node.kind_ofEntry_eq_file]), Nat.zero_add]

namespace OpenInv

variable {h : AcceptedIndex os header es} {nodes : List Node} {cursor : Nat}
  {totalSize : UInt64}

theorem nodup (inv : OpenInv h nodes cursor totalSize) : nodes.Nodup :=
  inv.frontier.nodup.of_map

theorem subperm (inv : OpenInv h nodes cursor totalSize) :
    nodes.Subperm (es.map Node.ofEntry) :=
  List.subperm_of_subset inv.nodup fun n hn => by
    obtain ⟨e, he, rfl⟩ := inv.entries n hn
    exact List.mem_map_of_mem he

theorem length_le (inv : OpenInv h nodes cursor totalSize) : nodes.length ≤ es.length := by
  simpa using inv.subperm.length_le

/-- Any prefix of the nodes stays below the total of the whole index. -/
theorem sum_take_lt (inv : OpenInv h nodes cursor totalSize) (k : Nat) :
    ((nodes.take k).map nodeBytes).sum < 2 ^ 64 := by
  obtain ⟨l, hperm, hsub⟩ := (List.take_sublist k nodes).subperm.trans inv.subperm
  have hle : (l.map nodeBytes).sum ≤ ((es.map Node.ofEntry).map nodeBytes).sum :=
    (hsub.map nodeBytes).sum_le_sum fun _ _ => Nat.zero_le _
  rw [(hperm.map nodeBytes).sum_eq, sum_nodeBytes] at hle
  have hsize := h.sum_sizes_le
  have hlt := header.dataSize.toNat_lt
  omega

theorem start {e : Entry} (he : e ∈ es) (hid : e.id = 1) :
    OpenInv h [Node.ofEntry e] 0 0 where
  frontier := by
    rw [List.map_cons, List.map_nil, Node.ofEntry_id, hid]
    exact RankedTree.Frontier.start _
  entries := by
    intro n hn
    exact ⟨e, he, (List.mem_singleton.mp hn).symm⟩
  cursor_le := Nat.zero_le _
  total := rfl

/-- Passing a node: its children join the list, its size joins the total. -/
theorem step (inv : OpenInv h nodes cursor totalSize) {e : Entry} {t : UInt64}
    (hnode : nodes[cursor]? = some (Node.ofEntry e))
    (ht : t.toNat = totalSize.toNat + nodeBytes (Node.ofEntry e)) :
    OpenInv h (nodes ++ childNodes es e.id) (cursor + 1) t where
  frontier := by
    rw [List.map_append]
    exact inv.frontier.step (lists_childNodes h) (x := e.id) (by rw [List.getElem?_map, hnode]; rfl)
  entries := by
    intro n hn
    rcases List.mem_append.mp hn with hn | hn
    · exact inv.entries n hn
    · obtain ⟨c, hc, -, -, hcn⟩ := (mem_childNodes h).mp hn
      exact ⟨c, hc, hcn⟩
  cursor_le := by
    obtain ⟨hlt, -⟩ := List.getElem?_eq_some_iff.mp hnode
    rw [List.length_append]
    omega
  total := by
    obtain ⟨hlt, -⟩ := List.getElem?_eq_some_iff.mp hnode
    rw [List.take_append_of_le_length (by omega), List.take_add_one, hnode, List.map_append,
      List.sum_append, ← inv.total, ht]
    simp

/-- A finished walk has met every entry exactly once. -/
theorem complete (inv : OpenInv h nodes cursor totalSize) (hend : nodes[cursor]? = none) :
    nodes.Perm (es.map Node.ofEntry) := by
  have hall := inv.frontier.complete (lists_childNodes h) (by rw [List.getElem?_map, hend]; rfl)
  have hids : (es.map Entry.id).Nodup := h.ids
  have hes : (es.map Node.ofEntry).Nodup := by
    refine List.Nodup.of_map Node.id ?_
    rw [List.map_map]
    exact hids
  refine (List.perm_ext_iff_of_nodup inv.nodup hes).mpr fun n => ⟨fun hn => ?_, fun hn => ?_⟩
  · exact inv.subperm.subset hn
  · obtain ⟨e, he, rfl⟩ := List.mem_map.mp hn
    obtain ⟨n, hn, hid⟩ := List.mem_map.mp (hall e.id ⟨e, he, rfl⟩)
    obtain ⟨e', he', rfl⟩ := inv.entries n hn
    rwa [h.eq_of_id_eq he he' hid.symm]

end OpenInv

/-- From any state of the walk, enough fuel finishes it. -/
theorem openLoop_complete (h : AcceptedIndex os header es) : ∀ (fuel : Nat) {nodes : List Node}
    {cursor : Nat} {totalSize : UInt64}, OpenInv h nodes cursor totalSize →
    es.length < fuel + cursor →
    ∃ nodes' total', openLoop (indexOf es) fuel nodes cursor totalSize =
        some (.ok (nodes', total')) ∧
      nodes'.Perm (es.map Node.ofEntry) ∧ total'.toNat = (nodes'.map nodeBytes).sum
  | 0, nodes, cursor, totalSize, inv, hfuel => by
      have hle := inv.length_le
      have hcur := inv.cursor_le
      omega
  | fuel + 1, nodes, cursor, totalSize, inv, hfuel => by
      rw [openLoop]
      cases hnode : nodes[cursor]? with
      | none =>
          have hlen : nodes.length ≤ cursor := List.getElem?_eq_none_iff.mp hnode
          refine ⟨nodes, totalSize, rfl, inv.complete hnode, ?_⟩
          rw [inv.total, List.take_of_length_le hlen]
      | some node =>
          obtain ⟨e, he, rfl⟩ := inv.entries node (List.mem_of_getElem? hnode)
          cases hk : e.kind with
          | directory =>
              have hkind : (Node.ofEntry e).kind = .directory := by simp [Node.ofEntry, hk]
              have hbytes : nodeBytes (Node.ofEntry e) = 0 := by simp [nodeBytes, hkind]
              simp only [hkind, Node.ofEntry_id, readDir_directory h he hk, toResult]
              exact openLoop_complete h fuel (inv.step hnode (by rw [hbytes]; rfl)) (by omega)
          | file =>
              have hkind : (Node.ofEntry e).kind = .file := Node.kind_ofEntry_eq_file.mpr hk
              have hbytes : nodeBytes (Node.ofEntry e) = e.size.toNat := by
                rw [nodeBytes, if_pos hkind]
                rfl
              have hsum := inv.sum_take_lt (cursor + 1)
              rw [List.take_add_one, hnode, List.map_append, List.sum_append, ← inv.total] at hsum
              simp only [Option.toList_some, List.map_cons, List.map_nil, List.sum_cons,
                List.sum_nil, Nat.add_zero, hbytes] at hsum
              obtain ⟨t, ht, htotal⟩ := exists_checkedAdd (a := totalSize) (b := e.size) hsum
              have hsize : (Node.ofEntry e).size = e.size := rfl
              simp only [hkind, hsize, ht]
              have hstep := inv.step hnode (t := t) (by rw [hbytes, htotal])
              rw [childNodes_file h he hk, List.append_nil] at hstep
              exact openLoop_complete h fuel hstep (by omega)

theorem openNodes_complete (h : AcceptedIndex os header es) {fuel : Nat}
    (hfuel : es.length < fuel) :
    ∃ nodes total, openNodes (indexOf es) fuel = some (.ok (nodes, total)) ∧
      nodes.Perm (es.map Node.ofEntry) ∧ total.toNat = (nodes.map nodeBytes).sum := by
  obtain ⟨root, hroot, hid⟩ := h.root
  have hmeta : metadata (indexOf es) 1 = .ok root :=
    metadata_eq_ok.mpr (h.lookup_indexOf.mpr ⟨hroot, hid⟩)
  rw [openNodes, hmeta]
  exact openLoop_complete h fuel (OpenInv.start hroot hid) hfuel

/-- **An accepted index is one tree, and the walk meets each of its entries once.** -/
theorem accepted_index_is_tree {ω : IterOrder} {os : Platform} {header : Header W}
    {index : Index} {v : ValidatedIndex} (hindex : validateIndex ω os header index = .ok v) :
    (∀ i e, v.entries.lookup i = some e ↔ e ∈ index.entries ∧ e.id = i) ∧
    (∀ e ∈ index.entries, ∀ k ≤ e.depth.toNat, ∃ a ∈ index.entries,
      v.ancestor k e.id = some a ∧ (a.id = 1 ↔ k = e.depth.toNat)) ∧
    (∀ e ∈ index.entries, e.id ≠ 0) ∧ (index.entries.map Entry.id).Nodup ∧
    (∀ e ∈ index.entries, ∃ p ∈ index.entries, p.id = e.parentId ∧ p.kind = .directory) ∧
    (∀ e ∈ index.entries, ∀ e' ∈ index.entries, e.id ≠ 1 → e'.id ≠ 1 →
      e.parentId = e'.parentId → e.name = e'.name → e = e') ∧
    (∀ e ∈ index.entries, e.kind = .file → e.fileId ≠ ByteArr.zero 16) ∧
    (fileIdsOf index.entries).Nodup ∧
    (∀ p, ((v.children.lookup p).getD []).Nodup ∧ ∀ i, i ∈ (v.children.lookup p).getD [] ↔
      ∃ e ∈ index.entries, e.id = i ∧ e.id ≠ 1 ∧ e.parentId = p) ∧
    ∀ fuel, index.entries.length < fuel → ∃ nodes total,
      openNodes v fuel = some (.ok (nodes, total)) ∧
      nodes.Perm (index.entries.map Node.ofEntry) := by
  obtain ⟨h, rfl⟩ := validateIndex_eq_ok.mp hindex
  refine ⟨fun i e => h.lookup_indexOf, fun e he k hk => h.ancestor_root_iff he hk,
    fun e he => (h.entries e he).id_ne_zero, h.ids, fun e he => h.parent_entry he, ?_,
    fun e he hk => ((h.entries e he).file hk).1, h.fileIds, ?_, ?_⟩
  · intro e he e' he' h1 h1' hp hn
    refine List.inj_on_of_nodup_map h.siblings ?_ ?_ (Prod.ext hp hn)
    · exact List.mem_filter.mpr ⟨he, decide_eq_true h1⟩
    · exact List.mem_filter.mpr ⟨he', decide_eq_true h1'⟩
  · intro p
    have hchildren : ((indexOf index.entries).children.lookup p).getD [] =
        childIds index.entries p := scanOf_children _ p
    rw [hchildren]
    exact ⟨h.nodup_childIds p, fun i => AcceptedIndex.mem_childIds⟩
  · intro fuel hfuel
    obtain ⟨nodes, total, hopen, hperm, -⟩ := openNodes_complete h hfuel
    exact ⟨nodes, total, hopen, hperm⟩

theorem accepted_index_is_tree_sample :
    ∃ nodes total, openNodes (indexOf sampleIndex.entries) 4 = some (.ok (nodes, total)) ∧
      nodes.Perm (sampleIndex.entries.map Node.ofEntry) := by
  obtain ⟨-, -, -, -, -, -, -, -, -, hopen⟩ :=
    accepted_index_is_tree (ω := .stored)
      (validateIndex_eq_ok.mpr ⟨sampleIndex_accepted (), rfl⟩)
  exact hopen 4 (by decide)

end CipherFS.WinFsp
