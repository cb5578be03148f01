import CipherFS.Core.Preparation
import CipherFS.Core.V2.EntryOrder

/-!
# The index that packing writes

The scan gives ids and offsets in the order of the walk, and a parent its id
before its children. What it collects is an index that the validator accepts,
under a header with its entry count and its data size.
-/

namespace CipherFS.Pack

open Result WorldProg V2 Tiling Prog

variable {os : Platform} {sourceDir path rel : Path} {seen : List (Result Path)} {scan scan' : Scan} {e : Entry}
  {place : Place}

/-! ## One entry more -/

/-- An entry stands for the object at a path. -/
structure StandsFor (sourceDir : Path) (seen : List (Result Path)) (scan : Scan) (e : Entry)
    (p : Path) : Prop where
  walked : .ok (sourceDir ++ p) ∈ seen
  below : p ≠ []
  name : p.getLast? = some (.utf8 e.name)
  parent : scan.pathIds.lookup p.dropLast = some e.parentId

/-- What the loop of `scan_source` keeps. `at` says for which path below the
source an id stands. -/
structure Scanned (os : Platform) (sourceDir : Path) (seen : List (Result Path)) (scan : Scan)
    (pathOf : UInt64 → Path) : Prop where
  root : directoryEntry 1 1 "" 0 ∈ scan.entries
  rootPath : pathOf 1 = []
  stands : ∀ e ∈ scan.entries, e.id ≠ 1 → StandsFor sourceDir seen scan e (pathOf e.id)
  depth : ∀ e ∈ scan.entries, e.depth.toNat = (pathOf e.id).length
  accepted : ∀ e ∈ scan.entries, EntryAccepted os e
  ids : (scan.entries.map Entry.id).Nodup
  fresh : ∀ e ∈ scan.entries, e.id.toNat < scan.nextId.toNat
  injective : ∀ e ∈ scan.entries, ∀ e' ∈ scan.entries, pathOf e.id = pathOf e'.id → e.id = e'.id
  directories : ∀ p id, scan.pathIds.lookup p = some id →
    pathOf id = p ∧ ∃ e ∈ scan.entries, e.id = id ∧ e.kind = .directory
  fileIds : (fileIdsOf scan.entries).Nodup ∧ ∀ f ∈ fileIdsOf scan.entries, f ∈ scan.fileIds
  layout : Contiguous 0 ((fileExtents scan.entries).map toExtent) scan.dataOffset.toNat
  count : scan.entries.length ≤ maxEntries

/-- What `placeOf` has checked. -/
structure Placed (os : Platform) (sourceDir path rel : Path) (scan : Scan) (place : Place) : Prop where
  path : path = sourceDir ++ rel
  relative : place.relative = rel
  parent : scan.pathIds.lookup rel.dropLast = some place.parentId
  name : rel.getLast? = some (.utf8 place.name)
  valid : validateName os place.name = .ok ()
  depth : place.depth = UInt32.ofNat rel.length
  depth_le : place.depth.toNat ≤ maxDepth.toNat
  count : scan.entries.length < maxEntries

theorem placeOf_eq_ok (h : placeOf os sourceDir path scan = .ok place) :
    ∃ rel, Placed os sourceDir path rel scan place := by
  simp only [placeOf, bind_eq_ok, ofOption_eq_ok, rejectIf_eq_ok] at h
  obtain ⟨rel, hrel, parentId, hparent, name, hname, ⟨⟩, hvalid, ⟨⟩, hdepth, ⟨⟩, hcount, heq⟩ := h
  obtain rfl := Except.ok.inj heq
  split at hrel
  · rename_i hprefix
    obtain ⟨rest, rfl⟩ := List.isPrefixOf_iff_prefix.mp hprefix
    rw [List.drop_left, Option.some.injEq] at hrel
    subst hrel
    refine ⟨rest, rfl, rfl, hparent, ?_, hvalid, rfl, ?_, Nat.lt_of_not_le hcount⟩
    · obtain ⟨last, hlast, hstr⟩ := Option.bind_eq_some_iff.mp hname
      cases last with
      | utf8 s =>
          obtain rfl := Option.some.inj hstr
          exact hlast
      | raw b => cases hstr
    · exact Nat.le_of_not_lt fun hlt => hdepth (UInt32.lt_iff_toNat_lt.mpr hlt)
  · cases hrel

/-- One iteration adds the entry for a path. -/
structure Adds (scan : Scan) (place : Place) (rel : Path) (e : Entry) (scan' : Scan) : Prop where
  entries : scan'.entries = scan.entries ++ [e]
  id : e.id = scan.nextId
  parentId : e.parentId = place.parentId
  name : e.name = place.name
  depth : e.depth = place.depth
  kind : KindAccepted e
  nextId : checkedAdd scan.nextId 1 = some scan'.nextId
  kept : ∀ p, p ≠ rel → scan'.pathIds.lookup p = scan.pathIds.lookup p
  own : ∀ id, scan'.pathIds.lookup rel = some id →
    scan.pathIds.lookup rel = some id ∨ id = e.id ∧ e.kind = .directory
  fileIds : (fileIdsOf scan'.entries).Nodup ∧ ∀ f ∈ fileIdsOf scan'.entries, f ∈ scan'.fileIds
  layout : Contiguous 0 ((fileExtents scan'.entries).map toExtent) scan'.dataOffset.toNat

namespace Scanned

variable {pathOf : UInt64 → Path}

/-- No entry stands for a path that the walk has not come to. -/
theorem ne_of_new (h : Scanned os sourceDir seen scan pathOf) (hrel : rel ≠ [])
    (hnew : .ok (sourceDir ++ rel) ∉ seen) (he : e ∈ scan.entries) : pathOf e.id ≠ rel := by
  rintro rfl
  by_cases hid : e.id = 1
  · rw [hid] at hrel
    exact hrel h.rootPath
  · exact hnew (h.stands e he hid).walked

theorem lookup_new (h : Scanned os sourceDir seen scan pathOf) (hrel : rel ≠ [])
    (hnew : .ok (sourceDir ++ rel) ∉ seen) (id : UInt64) : scan.pathIds.lookup rel ≠ some id := by
  intro hlook
  obtain ⟨hpath, e, he, rfl, -⟩ := h.directories rel id hlook
  exact h.ne_of_new hrel hnew he hpath

/-- The parent of a path is one level up, within the limit. -/
theorem length_lt (h : Scanned os sourceDir seen scan pathOf)
    (hp : Placed os sourceDir path rel scan place) (hrel : rel ≠ []) : rel.length < 2 ^ 32 := by
  obtain ⟨hpath, e, he, hid, -⟩ := h.directories _ _ hp.parent
  have hdepth := h.depth e he
  have hle : e.depth.toNat ≤ 1024 := (h.accepted e he).depth_le
  rw [hid, hpath, List.length_dropLast] at hdepth
  have hpos := List.length_pos_of_ne_nil hrel
  omega

theorem add (h : Scanned os sourceDir seen scan pathOf) (hp : Placed os sourceDir path rel scan place)
    (hrel : rel ≠ []) (hnew : .ok (sourceDir ++ rel) ∉ seen) (ha : Adds scan place rel e scan') :
    Scanned os sourceDir (seen ++ [.ok path]) scan' (Function.update pathOf e.id rel) := by
  have hlt : ∀ x ∈ scan.entries, x.id ≠ e.id := by
    intro x hx heq
    have hfresh := h.fresh x hx
    rw [heq, ha.id] at hfresh
    exact Nat.lt_irrefl _ hfresh
  have hroot : e.id ≠ 1 := fun heq => hlt _ h.root heq.symm
  have hold : ∀ x ∈ scan.entries, Function.update pathOf e.id rel x.id = pathOf x.id :=
    fun x hx => Function.update_of_ne (hlt x hx) ..
  have hself : Function.update pathOf e.id rel e.id = rel := Function.update_self ..
  have hdrop : rel.dropLast ≠ rel := by
    intro heq
    have hlen := congrArg List.length heq
    rw [List.length_dropLast] at hlen
    have hpos := List.length_pos_of_ne_nil hrel
    omega
  have hmem : ∀ {x : Entry}, x ∈ scan'.entries ↔ x ∈ scan.entries ∨ x = e := by
    intro x
    rw [ha.entries, List.mem_append, List.mem_singleton]
  have hnextId : scan'.nextId.toNat = scan.nextId.toNat + 1 := by
    have hone : (1 : UInt64).toNat = 1 := rfl
    rw [checkedAdd_eq_some_iff.mp ha.nextId, hone]
  have hdepth : e.depth.toNat = rel.length := by
    rw [ha.depth, hp.depth, UInt32.toNat_ofNat']
    exact Nat.mod_eq_of_lt (h.length_lt hp hrel)
  refine
    { root := hmem.mpr (.inl h.root), rootPath := ?_, stands := ?_, depth := ?_, accepted := ?_
      ids := ?_, fresh := ?_, injective := ?_, directories := ?_, fileIds := ha.fileIds
      layout := ha.layout, count := ?_ }
  · rw [Function.update_of_ne hroot.symm]
    exact h.rootPath
  · intro x hx hid
    rcases hmem.mp hx with hx | rfl
    · rw [hold x hx]
      have hstands := h.stands x hx hid
      refine ⟨List.mem_append_left _ hstands.walked, hstands.below, hstands.name, ?_⟩
      rw [ha.kept _ ?_]
      · exact hstands.parent
      · rintro heq
        have hparent := hstands.parent
        rw [heq] at hparent
        exact h.lookup_new hrel hnew _ hparent
    · rw [hself]
      refine ⟨?_, hrel, ?_, ?_⟩
      · rw [← hp.path]
        exact List.mem_append_right _ List.mem_cons_self
      · rw [ha.name]
        exact hp.name
      · rw [ha.kept _ hdrop, ha.parentId]
        exact hp.parent
  · intro x hx
    rcases hmem.mp hx with hx | rfl
    · rw [hold x hx]
      exact h.depth x hx
    · rw [hself]
      exact hdepth
  · intro x hx
    rcases hmem.mp hx with hx | rfl
    · exact h.accepted x hx
    · refine ⟨?_, ?_, ?_, ha.kind.1, ha.kind.2⟩
      · intro hzero
        have hfresh := h.fresh _ h.root
        rw [← ha.id, hzero] at hfresh
        exact Nat.not_lt_zero _ hfresh
      · rw [ha.depth]
        exact hp.depth_le
      · rw [if_neg hroot, ha.name]
        exact hp.valid
  · rw [ha.entries, List.map_append, List.nodup_append]
    refine ⟨h.ids, List.nodup_singleton _, ?_⟩
    intro i hi j hj
    obtain ⟨x, hx, rfl⟩ := List.mem_map.mp hi
    rw [List.map_singleton, List.mem_singleton] at hj
    rw [hj]
    exact hlt x hx
  · intro x hx
    rcases hmem.mp hx with hx | rfl
    · have := h.fresh x hx
      omega
    · rw [ha.id]
      omega
  · intro x hx y hy heq
    rcases hmem.mp hx with hx | rfl
    · rcases hmem.mp hy with hy | rfl
      · rw [hold x hx, hold y hy] at heq
        exact h.injective x hx y hy heq
      · rw [hold x hx, hself] at heq
        exact absurd heq (h.ne_of_new hrel hnew hx)
    · rcases hmem.mp hy with hy | rfl
      · rw [hold y hy, hself] at heq
        exact absurd heq.symm (h.ne_of_new hrel hnew hy)
      · rfl
  · intro p id hlook
    by_cases hpr : p = rel
    · subst hpr
      rcases ha.own id hlook with hlook | ⟨rfl, hk⟩
      · exact absurd hlook (h.lookup_new hrel hnew id)
      · exact ⟨hself, e, hmem.mpr (.inr rfl), rfl, hk⟩
    · rw [ha.kept p hpr] at hlook
      obtain ⟨hpath, x, hx, rfl, hk⟩ := h.directories p id hlook
      exact ⟨(hold x hx).trans hpath, x, hmem.mpr (.inl hx), rfl, hk⟩
  · rw [ha.entries, List.length_append, List.length_singleton]
    exact hp.count

/-- The source directory itself gets no second entry. -/
theorem skip (h : Scanned os sourceDir seen scan pathOf) {item : Result Path} :
    Scanned os sourceDir (seen ++ [item]) scan pathOf :=
  { h with
    stands := fun e he hid => { h.stands e he hid with
      walked := List.mem_append_left _ (h.stands e he hid).walked } }

end Scanned

/-! ## The entries of the loop -/

theorem fileIdsOf_directory {es : List Entry} {e : Entry} (hk : e.kind = .directory) :
    fileIdsOf (es ++ [e]) = fileIdsOf es := by
  simp [fileIdsOf, Entry.isFile, hk]

theorem fileExtents_directory {es : List Entry} {e : Entry} (hk : e.kind = .directory) :
    fileExtents (es ++ [e]) = fileExtents es := by
  simp [fileExtents, Entry.isFile, hk]

theorem fileIdsOf_file {es : List Entry} {e : Entry} (hk : e.kind = .file) :
    fileIdsOf (es ++ [e]) = fileIdsOf es ++ [e.fileId] := by
  simp [fileIdsOf, Entry.isFile, hk]

theorem fileExtents_file {es : List Entry} {e : Entry} (hk : e.kind = .file) :
    fileExtents (es ++ [e]) = fileExtents es ++ [(e.dataOffset, e.encryptedSize, e.id)] := by
  simp [fileExtents, Entry.isFile, hk]

variable {pathOf : UInt64 → Path} {nextId : UInt64} {T : Path → Prop}

theorem adds_directory (h : Scanned os sourceDir seen scan pathOf)
    (hp : Placed os sourceDir path rel scan place) (hnext : checkedAdd scan.nextId 1 = some nextId) :
    Adds scan place rel (directoryEntry scan.nextId place.parentId place.name place.depth)
      (Scan.addDirectory { scan with nextId := nextId } place scan.nextId) := by
  refine
    { entries := rfl, id := rfl, parentId := rfl, name := rfl, depth := rfl, kind := ?_
      nextId := hnext, kept := ?_, own := ?_, fileIds := ?_, layout := ?_ }
  · exact ⟨fun _ => ⟨rfl, rfl, rfl, rfl, rfl⟩, nofun⟩
  · intro p hne
    rw [← hp.relative] at hne
    exact AList.lookup_insert_ne hne
  · intro id hlook
    rw [← hp.relative] at hlook
    have hself := (AList.lookup_insert scan.pathIds).symm.trans hlook
    exact .inr ⟨(Option.some.inj hself).symm, rfl⟩
  · rw [Scan.addDirectory, fileIdsOf_directory rfl]
    exact h.fileIds
  · rw [Scan.addDirectory, fileExtents_directory rfl]
    exact h.layout

/-- What the file branch has computed when it adds its entry. -/
theorem adds_file {fileId : ByteArr 16} {size totalPlaintext dataOffset : UInt64}
    {sizes : UInt64 × UInt64} {sources : List (UInt64 × SourceSnapshot)}
    (h : Scanned os sourceDir seen scan pathOf) (hnext : checkedAdd scan.nextId 1 = some nextId)
    (hid : fileId ≠ ByteArr.zero 16 ∧ fileId ∉ scan.fileIds)
    (hsizes : encryptedFileSize size = .ok sizes)
    (hoffset : checkedAdd scan.dataOffset sizes.2 = some dataOffset) :
    Adds scan place rel (fileEntry scan place scan.nextId fileId size sizes)
      { scan with
        nextId := nextId
        entries := scan.entries ++ [fileEntry scan place scan.nextId fileId size sizes]
        fileIds := fileId :: scan.fileIds
        sources := sources
        totalPlaintext := totalPlaintext
        dataOffset := dataOffset } := by
  refine
    { entries := rfl, id := rfl, parentId := rfl, name := rfl, depth := rfl, kind := ?_
      nextId := hnext, kept := fun _ _ => rfl, own := fun _ => .inl, fileIds := ?_, layout := ?_ }
  · exact ⟨nofun, fun _ => ⟨hid.1, hsizes⟩⟩
  · rw [fileIdsOf_file rfl, List.nodup_append]
    refine ⟨⟨h.fileIds.1, List.nodup_singleton _, ?_⟩, ?_⟩
    · rintro f hf g hg rfl
      rw [List.mem_singleton.mp hg] at hf
      exact hid.2 (h.fileIds.2 fileId hf)
    · intro f hf
      rcases List.mem_append.mp hf with hf | hf
      · exact List.mem_cons_of_mem _ (h.fileIds.2 f hf)
      · rw [List.mem_singleton.mp hf]
        exact List.mem_cons_self
  · rw [fileExtents_file rfl, List.map_append, contiguous_append]
    exact ⟨scan.dataOffset.toNat, h.layout, rfl, (checkedAdd_eq_some_iff.mp hoffset).symm⟩

/-! ## The loop -/

theorem yields_scanFile (h : Scanned os sourceDir seen scan pathOf)
    (hnext : checkedAdd scan.nextId 1 = some nextId) :
    Yields (confined T) (fun scan' => ∃ e, Adds scan place rel e scan')
      (scanFile { scan with nextId := nextId } place scan.nextId path) := by
  unfold scanFile
  refine .bind (built_openFile path) fun file _ => ?_
  refine .bind (built_perform moves_reading) fun size _ => ?_
  refine .bind (yields_drawFileId _) fun fileId hid => ?_
  refine .bind (yields_require _) fun sizes hsizes => ?_
  refine .bind (built_fromFile file) fun fingerprint _ => .bind (built_require _) fun total _ => ?_
  refine .bind (yields_require _) fun offset hoffset => ?_
  exact .pure ⟨_, adds_file h hnext hid hsizes (ofOption_eq_ok.mp hoffset)⟩

theorem yields_scanItem {item : Result Path} (h : ∃ pathOf, Scanned os sourceDir seen scan pathOf)
    (hnew : item ∉ seen) :
    Yields (confined T) (fun scan' => ∃ pathOf, Scanned os sourceDir (seen ++ [item]) scan' pathOf)
      (scanItem os sourceDir scan item) := by
  obtain ⟨pathOf, h⟩ := h
  unfold scanItem
  refine .bind built_check fun _ _ => .bind (yields_require _) fun path hitem => ?_
  subst hitem
  split
  · exact .pure ⟨pathOf, h.skip⟩
  · rename_i hne
    refine .bind (yields_require _) fun place hplace => ?_
    refine .bind (built_perform moves_reading) fun node _ => ?_
    refine .bind (yields_require _) fun nextId hnext => ?_
    rw [ofOption_eq_ok] at hnext
    obtain ⟨rel, hp⟩ := placeOf_eq_ok hplace
    have hpath := hp.path
    have hrel : rel ≠ [] := by
      rintro rfl
      rw [List.append_nil] at hpath
      exact hne hpath
    have hadd : ∀ scan', (∃ e, Adds scan place rel e scan') →
        ∃ pathOf, Scanned os sourceDir (seen ++ [.ok path]) scan' pathOf := by
      rintro scan' ⟨e, ha⟩
      rw [hpath] at hnew
      exact ⟨_, h.add hp hrel hnew ha⟩
    cases node with
    | symlink _ => exact (yields_require _).weaken fun _ hbail => absurd hbail bail_ne_ok
    | directory => exact .pure (hadd _ ⟨_, adds_directory h hp hnext⟩)
    | file _ => exact (yields_scanFile h hnext).weaken hadd
    | special => exact (yields_require _).weaken fun _ hbail => absurd hbail bail_ne_ok

theorem scanned_start : Scanned os sourceDir [] .start fun _ => [] where
  root := List.mem_singleton.mpr rfl
  rootPath := rfl
  stands e he hid := by
    rw [List.mem_singleton.mp he] at hid
    exact absurd rfl hid
  depth e he := by
    rw [List.mem_singleton.mp he]
    rfl
  accepted e he := by
    rw [List.mem_singleton.mp he]
    refine ⟨by decide, by decide, ?_, by decide, nofun⟩
    rw [if_pos (show (directoryEntry 1 1 "" 0).id = 1 from rfl)]
    exact ⟨rfl, rfl, rfl, rfl⟩
  ids := List.nodup_singleton _
  fresh e he := by
    rw [List.mem_singleton.mp he]
    decide
  injective e he e' he' _ := by rw [List.mem_singleton.mp he, List.mem_singleton.mp he']
  directories p id hlook := by
    obtain ⟨hid, hp⟩ : id = 1 ∧ p = [] := by
      by_cases hp : p = []
      · subst hp
        exact ⟨(Option.some.inj hlook).symm, rfl⟩
      · have hnone : AList.lookup p Scan.start.pathIds = none := by
          rw [AList.lookup_eq_none]
          exact fun hmem => hp (List.mem_singleton.mp hmem)
        rw [hnone] at hlook
        cases hlook
    exact ⟨hp.symm, _, List.mem_singleton.mpr rfl, hid.symm, rfl⟩
  fileIds := ⟨List.nodup_nil, nofun⟩
  layout := rfl
  count := by decide

theorem yields_scanSource {walk : List (Result Path)} (hwalk : walk.Nodup) :
    Yields (confined T) (fun scan => ∃ pathOf, Scanned os sourceDir walk scan pathOf)
      (scanSource os walk sourceDir) := by
  refine .foldlM_upto (I := fun seen scan => ∃ pathOf, Scanned os sourceDir seen scan pathOf) ?_
    ⟨_, scanned_start⟩
  rintro pre item post scan rfl h
  refine yields_scanItem h fun hmem => ?_
  exact (List.nodup_append.mp hwalk).2.2 item hmem item List.mem_cons_self rfl

/-! ## The index -/

namespace Scanned

/-- The parent and the name tell where an entry stands. -/
theorem pathOf_eq (h : Scanned os sourceDir seen scan pathOf) {x y : Entry} (hx : x ∈ scan.entries)
    (hx1 : x.id ≠ 1) (hy : y ∈ scan.entries) (hy1 : y.id ≠ 1) (hplace : x.place = y.place) :
    pathOf x.id = pathOf y.id := by
  have hsx := h.stands x hx hx1
  have hsy := h.stands y hy hy1
  obtain ⟨hparent, hname⟩ := Prod.mk.inj hplace
  have hdrop : (pathOf x.id).dropLast = (pathOf y.id).dropLast := by
    rw [← (h.directories _ _ hsx.parent).1, ← (h.directories _ _ hsy.parent).1, hparent]
  have hlast : (pathOf x.id).getLast? = (pathOf y.id).getLast? := by
    rw [hsx.name, hsy.name, hname]
  rw [← List.dropLast_append_getLast? _ hsx.name, ← List.dropLast_append_getLast? _ hsy.name,
    hdrop, hname]

theorem hasParent (h : Scanned os sourceDir seen scan pathOf) {e : Entry} (he : e ∈ scan.entries)
    (hid : e.id ≠ 1) : HasParent scan.entries e := by
  have hs := h.stands e he hid
  obtain ⟨hpath, p, hp, hpid, hk⟩ := h.directories _ _ hs.parent
  refine ⟨p, hp, hpid, hk, ?_⟩
  rw [h.depth p hp, hpid, hpath, h.depth e he, List.length_dropLast]
  have hpos := List.length_pos_of_ne_nil hs.below
  omega

/-- The files stand in the order of their offsets, so sorting moves none. -/
theorem sorted (h : Scanned os sourceDir seen scan pathOf) :
    sortByOffset (fileExtents scan.entries) = fileExtents scan.entries := by
  refine List.mergeSort_of_pairwise ?_
  refine (List.pairwise_map.mp h.layout.pairwise_before).imp fun {x y} hxy => decide_eq_true ?_
  exact UInt64.le_iff_toNat_le.mpr (Nat.le_trans (Nat.le_add_right _ _) hxy)

/-- **The index of a scan is accepted** under a header with its count and size. -/
theorem acceptedIndex (h : Scanned os sourceDir seen scan pathOf) {W : Type} {header : Header W}
    (hcount : header.entryCount = UInt64.ofNat scan.entries.length)
    (hsize : header.dataSize = scan.dataOffset) : AcceptedIndex os header scan.entries where
  count := by
    have hle : scan.entries.length ≤ 5000000 := h.count
    rw [hcount, UInt64.toNat_ofNat', Nat.mod_eq_of_lt (by omega)]
  count_le := h.count
  entries := h.accepted
  ids := h.ids
  fileIds := h.fileIds.1
  root := ⟨_, h.root, rfl⟩
  parents e he hid := h.hasParent he hid
  siblings := by
    refine List.Nodup.map_on ?_ ((List.Nodup.of_map _ h.ids).filter _)
    intro x hx y hy hplace
    obtain ⟨hx, hx1⟩ := List.mem_filter.mp hx
    obtain ⟨hy, hy1⟩ := List.mem_filter.mp hy
    have hpath := h.pathOf_eq hx (of_decide_eq_true hx1) hy (of_decide_eq_true hy1) hplace
    exact List.inj_on_of_nodup_map h.ids hx hy (h.injective x hx y hy hpath)
  layout := by
    rw [h.sorted, hsize]
    exact h.layout

end Scanned

/-! ## The header over it -/

variable {Key W : Type} {C : Crypto Key W} {header header' : Header W}

theorem configureDuress_layout {d : Option String} {params : Argon2Params} {r : SlotRandom W}
    (h : configureDuress C header d params r = .ok header') :
    header'.entryCount = header.entryCount ∧ header'.dataSize = header.dataSize := by
  unfold configureDuress at h
  cases d with
  | none =>
      cases h
      exact ⟨rfl, rfl⟩
  | some q =>
      simp only [bind_eq_ok, Except.ok.injEq] at h
      obtain ⟨kek, -, wrapped, -, rfl⟩ := h
      exact ⟨rfl, rfl⟩

theorem yields_makeHeader (R : Reader Key) (req : PackRequest) (indexSize : UInt64) (scan : Scan) :
    Yields (confined T) (fun made => made.1.entryCount = UInt64.ofNat scan.entries.length ∧
      made.1.dataSize = scan.dataOffset) (makeHeader R req indexSize scan) := by
  have hrandom : Built (confined T) headerRandom :=
    built_call (fun _ w => .refl w) fun _ _ _ he => nomatch he
  unfold makeHeader
  refine .bind hrandom fun r _ => .bind (built_event (e := .phaseStarted _) rfl) fun _ _ => ?_
  refine .bind (yields_require _) fun header hheader => .bind built_check fun _ _ => ?_
  refine .bind (built_require _) fun slot _ => .bind built_check fun _ _ => ?_
  exact .pure (configureDuress_layout hheader)

/-- **What packing writes, reading accepts**: no walk of the source leads to an
index that the validator refuses under the header made for it. -/
theorem scanned_index_accepted {walk : List (Result Path)} {R : Reader Key} {req : PackRequest}
    {indexSize : UInt64} {made : Header (ByteArr 48) × ByteArr 32} {w w' u u' : World}
    {ls ls' : List (Label WorldInput EnvAction)} (hwalk : walk.Nodup)
    (hscan : (scanSource os walk req.source).Executes World.env w ls (.ok scan) w')
    (hmade : (makeHeader R req indexSize scan).Executes World.env u ls' (.ok made) u')
    (ω : IterOrder) : Accepts ω os made.1 scan.entries := by
  obtain ⟨pathOf, hscanned⟩ := (yields_scanSource (T := fun _ => False) hwalk).of_executes hscan
  obtain ⟨hcount, hsize⟩ :=
    (yields_makeHeader (T := fun _ => False) R req indexSize scan).of_executes hmade
  exact ⟨_, validateIndex_eq_ok.mpr ⟨hscanned.acceptedIndex hcount hsize, rfl⟩⟩

/-! ## A source with one file -/

theorem executes_require {α : Type} {r : Result α} {a : α} (w : World) (h : r = .ok a) :
    (require r).Executes World.env w [] (.ok a) w := by
  subst h
  exact .pure a w

theorem executes_perform {α : Type} {op : Op α} {i : WorldInput} {w w' : World} {a : α}
    (h : op i w = (.ok a, w')) :
    (perform op).Executes World.env w [.task (.here i)] (.ok a) w' := by
  refine .call_eq ?_
  simp only [h]

/-- A directory with one file of one byte. -/
def sampleWorld : World := .start
  { tree := fun p => if p = [.utf8 "s"] then some .directory
      else if p = [.utf8 "s", .utf8 "a"] then some (.file (.other 0)) else none
    inodes := fun _ => ⟨[7], 0⟩ } 1

def sampleInput : WorldInput := ⟨none, 0, fun _ => true, fun _ => 1, 0⟩

def sampleWalk : List (Result Path) := [.ok [.utf8 "s"], .ok [.utf8 "s", .utf8 "a"]]

def sampleScan : Scan where
  entries := [directoryEntry 1 1 "" 0,
    ⟨2, 1, "a", 1, .file, sampleFile.fileId, 1, 0, 17, 1⟩]
  pathIds := AList.singleton [] 1
  fileIds := [sampleFile.fileId]
  sources := [(2, ⟨[.utf8 "s", .utf8 "a"], ⟨1, 0, .other 0⟩⟩)]
  nextId := 3
  totalPlaintext := 1
  dataOffset := 17

theorem placeOf_sample :
    placeOf .unix [.utf8 "s"] [.utf8 "s", .utf8 "a"] .start = .ok ⟨[.utf8 "a"], 1, "a", 1⟩ := by
  rfl

theorem executes_scanSource_sample : ∃ ls, (scanSource .unix sampleWalk [.utf8 "s"]).Executes World.env
    sampleWorld ls (.ok sampleScan) sampleWorld := by
  constructor
  apply Executes.bind_ok (a := Scan.start) (u := sampleWorld)
  · apply Executes.bind_ok (.call_eq (i := sampleInput) rfl)
    exact .bind_ok (executes_require _ rfl) (.pure _ _)
  apply Executes.bind_ok (a := sampleScan) (u := sampleWorld)
  · apply Executes.bind_ok (.call_eq (i := sampleInput) rfl)
    apply Executes.bind_ok (executes_require _ rfl)
    apply Executes.bind_ok (executes_require _ placeOf_sample)
    apply Executes.bind_ok (executes_perform (i := sampleInput) (a := .file (.other 0)) rfl)
    apply Executes.bind_ok (executes_require _ rfl)
    apply Executes.bind_ok (executes_perform (i := sampleInput) rfl)
    apply Executes.bind_ok (executes_perform (i := sampleInput) rfl)
    apply Executes.bind_ok (a := ⟨List.replicate 16 1, rfl⟩) (u := sampleWorld)
    · show Executes _ _ _ [.task (.here sampleInput)] _ _
      exact fun k h rest => rfl
    apply Executes.bind_ok (executes_require _ rfl)
    apply Executes.bind_ok (executes_perform (i := sampleInput) rfl)
    apply Executes.bind_ok (executes_require _ rfl)
    apply Executes.bind_ok (executes_require _ rfl)
    exact .pure sampleScan _
  · exact .pure _ _

def sampleReader : Reader Unit :=
  ⟨clearCrypto, ⟨fun _ => none, fun _ => none⟩, .stored, .unix, .ascii, id⟩

def sampleRequest : PackRequest :=
  ⟨[.utf8 "s"], [.utf8 "v"], "p", none, ⟨19456, 2, 1⟩, maxIndexSize, none⟩

theorem executes_makeHeader_sample : ∃ ls made u,
    (makeHeader sampleReader sampleRequest 100 sampleScan).Executes World.env sampleWorld ls
      (.ok made) u := by
  constructor
  constructor
  constructor
  apply Executes.bind_ok (.call_eq (i := sampleInput) rfl)
  apply Executes.bind_ok (.call_eq (i := sampleInput) rfl)
  apply Executes.bind_ok (executes_require _ rfl)
  apply Executes.bind_ok (.call_eq (i := sampleInput) rfl)
  apply Executes.bind_ok (executes_require _ rfl)
  apply Executes.bind_ok (.call_eq (i := sampleInput) rfl)
  exact .pure _ _

theorem scanned_index_accepted_sample : ∃ header : Header (ByteArr 48),
    Accepts .stored .unix header sampleScan.entries := by
  obtain ⟨ls, hscan⟩ := executes_scanSource_sample
  obtain ⟨ls', made, u, hmade⟩ := executes_makeHeader_sample
  exact ⟨made.1, scanned_index_accepted (by decide) hscan hmade .stored⟩

end CipherFS.Pack
