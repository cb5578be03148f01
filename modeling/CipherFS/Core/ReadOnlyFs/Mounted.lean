import CipherFS.Core.ContainerTree
import CipherFS.Core.ReadOnlyFs.Listing
import CipherFS.Core.ReadOnlyFs.Read

/-!
# What a mount shows

A mount is looked at one name at a time, and its files are read in ranges, through
a cache. What comes to light in this way is the tree that the container holds.
-/

namespace CipherFS.ReadOnlyFs

open V2 Extract Result

variable {Key : Type} {C : Crypto Key (ByteArr 48)} {o : OpenedContainer (ByteArr 48)}
  {ω : IterOrder} {os : Platform} {header : Header (ByteArr 48)} {index : Index} {es : List Entry}
  {e : Entry} {names : List String} {content : Bytes} {p : Path} {x y : Object}

/-- The entry that one comes to from the root, looking up one name after the other. -/
def nodeAt (index : ValidatedIndex) (names : List String) : FsResult Entry := do
  let root ← metadata index 1
  names.foldlM (fun e name => lookup index e.id name) root

/-- What is seen of an entry: which kind it is, and of a file its size and, whatever
the cache holds, every range but one: the empty read at the start of a file that
is not empty fails. -/
def Displays (C : Crypto Key (ByteArr 48)) (o : OpenedContainer (ByteArr 48)) (es : List Entry)
    (e : Entry) : Object → Prop
  | .directory => e.kind = .directory
  | .file content => e.kind = .file ∧ e.size.toNat = content.length ∧
      ∀ maxBytes seen, (∀ i, ReachableCache (decryptChunk C o) es maxBytes (seen i)) →
        ∀ offset size, ¬(offset = 0 ∧ size = 0 ∧ e.size ≠ 0) →
          read C o seen e.id offset size = .ok (slice content (min offset.toNat content.length)
            (min (offset.toNat + size.toNat) content.length))

/-! ## Names -/

theorem nodeAt_concat (index : ValidatedIndex) (names : List String) (name : String) :
    nodeAt index (names ++ [name]) =
      nodeAt index names >>= fun parent => lookup index parent.id name := by
  unfold nodeAt
  cases metadata index 1 with
  | error err => rfl
  | ok root => simp only [ok_bind, List.foldlM_append, List.foldlM_cons, List.foldlM_nil, bind_pure]

/-- **Lookups find an entry at its path**, and nowhere else. -/
theorem nodeAt_eq_ok (h : AcceptedIndex os header es) : nodeAt (indexOf es) names = .ok e ↔
    e ∈ es ∧ entryPath (indexOf es) e = names.map .utf8 := by
  have hv := extractable_indexOf h
  have hmem : ∀ x, x ∈ (indexOf es).entries.values ↔ x ∈ es := fun x =>
    (h.values_indexOf_perm .stored).mem_iff
  induction names using List.reverseRecOn generalizing e with
  | nil =>
      have hroot : nodeAt (indexOf es) [] = .ok e ↔ e ∈ es ∧ e.id = 1 := by
        rw [← h.lookup_indexOf, ← metadata_eq_ok]
        unfold nodeAt
        cases metadata (indexOf es) 1 with
        | error err => exact Iff.rfl
        | ok root => exact Iff.rfl
      rw [hroot]
      constructor
      · rintro ⟨he, hid⟩
        exact ⟨he, (hv.root_path e ((hmem e).mpr he) hid).2⟩
      · rintro ⟨he, hpath⟩
        obtain ⟨root, hr, hid⟩ := hv.root
        have hsame := hpath.trans (hv.root_path root hr hid).2.symm
        rw [hv.injective e ((hmem e).mpr he) root hr hsame]
        exact ⟨(hmem root).mp hr, hid⟩
  | append_singleton names name ih =>
      rw [nodeAt_concat, bind_eq_ok]
      simp only [ih, lookup_eq_ok h, List.map_append, List.map_singleton]
      constructor
      · rintro ⟨parent, ⟨hparent, hpath⟩, he, hid, hpid, rfl⟩
        obtain ⟨p, hp, hpid', -, -, hchild⟩ := hv.child e ((hmem e).mpr he) hid
        obtain rfl := h.eq_of_id_eq ((hmem p).mp hp) hparent (hpid'.trans hpid)
        exact ⟨he, by rw [hchild, hpath]⟩
      · rintro ⟨he, hpath⟩
        have hid : e.id ≠ 1 := by
          intro hid
          rw [(hv.root_path e ((hmem e).mpr he) hid).2] at hpath
          exact List.append_ne_nil_of_right_ne_nil _ (List.cons_ne_nil _ _) hpath.symm
        obtain ⟨p, hp, hpid, -, -, hchild⟩ := hv.child e ((hmem e).mpr he) hid
        obtain ⟨hfront, hlast⟩ := List.append_inj' (hchild.symm.trans hpath) rfl
        exact ⟨p, ⟨(hmem p).mp hp, hfront⟩, he, hid, hpid.symm,
          OsString.utf8.inj (List.singleton_inj.mp hlast)⟩

/-! ## Files -/

/-- What a chunk decrypts to, if it does. -/
def chunkData (C : Crypto Key (ByteArr 48)) (o : OpenedContainer (ByteArr 48)) (e : Entry)
    (k : UInt64) : Bytes := (decryptChunk C o e k).toOption.getD []

theorem plaintext_of_fileContent (h : fileContent C o e = .ok content) :
    (∀ k < e.chunkCount, decryptChunk C o e k = .ok (chunkData C o e k)) ∧
      content = plaintext (chunkData C o e) e := by
  obtain ⟨parts, hparts, hcontent⟩ := bind_eq_ok.mp h
  have hdata : ∀ k data, decryptChunk C o e k = .ok data → data = chunkData C o e k := by
    intro k data hk
    rw [chunkData, hk]
    rfl
  constructor
  · intro k hk
    have hall : ∀ {ks : List UInt64} {ds : List Bytes},
        List.Forall₂ (fun k data => decryptChunk C o e k = .ok data) ks ds → k ∈ ks →
          ∃ data, decryptChunk C o e k = .ok data := by
      intro ks ds hks hmem
      induction hks with
      | nil => cases hmem
      | cons hdec _ ih =>
          rcases List.mem_cons.mp hmem with rfl | hmem
          · exact ⟨_, hdec⟩
          · exact ih hmem
    obtain ⟨data, hdec⟩ := hall (mapM_eq_ok.mp hparts) (mem_chunkIndices.mpr hk)
    rw [hdec, hdata k data hdec]
  · have hmap := map_eq_of_mapM_eq_ok (g := id) hparts fun k _ data hk => hdata k data hk
    rw [List.map_id] at hmap
    rw [← Except.ok.inj hcontent, hmap, plaintext, Entry.chunkIndices, List.map_map,
      ← List.flatMap_def]
    rfl

theorem displays_of_shows (hvalid : validateIndex ω os o.header index = .ok o.index)
    (he : e ∈ index.entries) (hx : o.Shows C e x) : Displays C o index.entries e x := by
  cases x with
  | directory => exact hx
  | file content =>
      obtain ⟨hkind, hcontent⟩ := hx
      obtain ⟨hchunk, rfl⟩ := plaintext_of_fileContent hcontent
      obtain ⟨haccepted, -⟩ := validateIndex_eq_ok.mp hvalid
      obtain ⟨hcount, -⟩ := encryptedFileSize_eq_ok.mp ((haccepted.entries e he).file hkind).2
      have hread : Readable C o (fun _ => .empty 0) e (chunkData C o e) 4194304 :=
        ⟨rfl, by decide, hcount,
          fun i hi => loadChunk_ok haccepted he hkind (hchunk i hi) (reachableCache_empty 0),
          fun i hi => (length_of_decryptChunk (hchunk i hi)).2⟩
      refine ⟨hkind, hread.length_plaintext.symm, fun maxBytes seen hseen offset size hrange => ?_⟩
      exact (read_eq_slice_iff hvalid he hkind hchunk hseen).mpr hrange

/-- One byte. -/
theorem slice_succ {l : Bytes} {k : ℕ} (hk : k < l.length) : slice l k (k + 1) = [l[k]] := by
  rw [slice, Nat.add_sub_cancel_left, List.drop_eq_getElem_cons hk]
  rfl

/-- What is seen of an entry is one object. -/
theorem Displays.unique (hx : Displays C o es e x) (hy : Displays C o es e y) : x = y := by
  cases x with
  | directory =>
      cases y with
      | directory => rfl
      | file b =>
          have hkind := hx.symm.trans hy.1
          cases hkind
  | file b =>
      cases y with
      | directory =>
          have hkind := hy.symm.trans hx.1
          cases hkind
      | file b' =>
          have hlen : b.length = b'.length := hx.2.1.symm.trans hy.2.1
          congr 1
          refine List.ext_getElem hlen fun k hk hk' => ?_
          -- the file is read byte by byte
          have hword : k < 2 ^ 64 := Nat.lt_trans (hx.2.1 ▸ hk) e.size.toNat_lt
          have hoffset : (UInt64.ofNat k).toNat = k := UInt64.toNat_ofNat_of_lt' hword
          have hone : (1 : UInt32).toNat = 1 := rfl
          have hrange : ¬(UInt64.ofNat k = 0 ∧ (1 : UInt32) = 0 ∧ e.size ≠ 0) := by
            rintro ⟨-, hzero, -⟩
            revert hzero
            decide
          have hread := hx.2.2 0 (fun _ => .empty 0) (fun _ => reachableCache_empty 0) _ _ hrange
          have hread' := hy.2.2 0 (fun _ => .empty 0) (fun _ => reachableCache_empty 0) _ _ hrange
          have hslice := Except.ok.inj (hread.symm.trans hread')
          rw [hoffset, hone, Nat.min_eq_left (Nat.le_of_lt hk), Nat.min_eq_left hk,
            Nat.min_eq_left (Nat.le_of_lt hk'), Nat.min_eq_left hk', slice_succ hk,
            slice_succ hk'] at hslice
          exact List.singleton_inj.mp hslice

/-- The entries of an open container are those of the index that it was opened from. -/
theorem mem_values (hvalid : validateIndex ω os header index = .ok o.index) :
    e ∈ o.index.entries.values ↔ e ∈ index.entries := by
  obtain ⟨haccepted, hindex⟩ := validateIndex_eq_ok.mp hvalid
  rw [hindex]
  exact (haccepted.values_indexOf_perm .stored).mem_iff

/-- The names lead to the entry at their path. -/
theorem nodeAt_iff_path (hvalid : validateIndex ω os header index = .ok o.index) :
    nodeAt o.index names = .ok e ↔
      e ∈ o.index.entries.values ∧ entryPath o.index e = names.map .utf8 := by
  rw [mem_values hvalid, (validateIndex_eq_ok.mp hvalid).2]
  exact nodeAt_eq_ok (validateIndex_eq_ok.mp hvalid).1

/-- Whatever is found by its names displays something, if all that is in the
container can be read. -/
theorem exists_displays (hvalid : validateIndex ω os o.header index = .ok o.index)
    (hreadable : ∀ e ∈ o.index.entries.values, ∃ x, o.Shows C e x)
    (he : nodeAt o.index names = .ok e) : ∃ x, Displays C o index.entries e x := by
  obtain ⟨hmem, -⟩ := (nodeAt_iff_path hvalid).mp he
  obtain ⟨x, hx⟩ := hreadable e hmem
  exact ⟨x, displays_of_shows hvalid ((mem_values hvalid).mp hmem) hx⟩

/-- **A mount shows what the container has**, if all that is in it can be read. -/
theorem has_iff_displays (hvalid : validateIndex ω os o.header index = .ok o.index)
    (hreadable : ∀ e ∈ o.index.entries.values, ∃ x, o.Shows C e x) :
    o.Has C p x ↔ ∃ names e, p = names.map .utf8 ∧ nodeAt o.index names = .ok e ∧
      Displays C o index.entries e x := by
  constructor
  · rintro ⟨e, he, rfl, hx⟩
    exact ⟨o.index.pathTo e, e, rfl, (nodeAt_iff_path hvalid).mpr ⟨he, rfl⟩,
      displays_of_shows hvalid ((mem_values hvalid).mp he) hx⟩
  · rintro ⟨names, e, rfl, he, hx⟩
    obtain ⟨he, hpath⟩ := (nodeAt_iff_path hvalid).mp he
    obtain ⟨y, hy⟩ := hreadable e he
    obtain rfl := hx.unique (displays_of_shows hvalid ((mem_values hvalid).mp he) hy)
    exact ⟨e, he, hpath, hy⟩

end CipherFS.ReadOnlyFs
