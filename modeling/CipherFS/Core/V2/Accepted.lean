import CipherFS.Framework.Tiling
import CipherFS.Core.V2.Validate

/-!
# The indexes `validate_index` accepts

`AcceptedIndex` says without loops, maps or sorting what the validator's passes
amount to: local checks on each entry, unique ids and file ids, a parent one
level up for every entry but the root, distinct sibling names, and file extents
that tile the data region. `validateIndex_eq_ok` is the equivalence.
-/

namespace CipherFS.V2

open Result Tiling

variable {W : Type}

/-! ## The declarative side -/

def Entry.isFile (e : Entry) : Bool := e.kind = .file

@[simp] theorem Entry.isFile_iff {e : Entry} : e.isFile = true ↔ e.kind = .file := by
  simp [Entry.isFile]

theorem Entry.not_isFile_iff {e : Entry} : e.isFile = false ↔ e.kind = .directory := by
  cases h : e.kind <;> simp [Entry.isFile, h]

/-- The local checks on one entry. -/
structure EntryAccepted (os : Platform) (e : Entry) : Prop where
  id_ne_zero : e.id ≠ 0
  depth_le : e.depth.toNat ≤ maxDepth.toNat
  root_or_name : if e.id = 1 then
      e.parentId = 1 ∧ e.depth = 0 ∧ e.kind = .directory ∧ e.name = ""
    else validateName os e.name = .ok ()
  directory : e.kind = .directory → e.size = 0 ∧ e.dataOffset = 0 ∧
    e.encryptedSize = 0 ∧ e.chunkCount = 0 ∧ e.fileId = ByteArr.zero 16
  file : e.kind = .file → e.fileId ≠ ByteArr.zero 16 ∧
    encryptedFileSize e.size = .ok (e.chunkCount, e.encryptedSize)

/-- The file ids of the file entries, in order. -/
def fileIdsOf (es : List Entry) : List (ByteArr 16) :=
  (es.filter Entry.isFile).map Entry.fileId

/-- The extents of the file entries, in order. -/
def fileExtents (es : List Entry) : List (UInt64 × UInt64 × UInt64) :=
  (es.filter Entry.isFile).map fun e => (e.dataOffset, e.encryptedSize, e.id)

/-- An extent as numbers. -/
def toExtent (f : UInt64 × UInt64 × UInt64) : Extent := (f.1.toNat, f.2.1.toNat)

/-- The entry's parent exists, is a directory and is one level up. -/
def HasParent (es : List Entry) (e : Entry) : Prop :=
  ∃ p ∈ es, p.id = e.parentId ∧ p.kind = .directory ∧ p.depth.toNat + 1 = e.depth.toNat

/-- Parent and name: what must differ between two entries. -/
def Entry.place (e : Entry) : UInt64 × String := (e.parentId, e.name)

structure AcceptedIndex (os : Platform) (header : Header W) (es : List Entry) : Prop where
  count : es.length = header.entryCount.toNat
  count_le : es.length ≤ maxEntries
  entries : ∀ e ∈ es, EntryAccepted os e
  ids : (es.map Entry.id).Nodup
  fileIds : (fileIdsOf es).Nodup
  root : ∃ e ∈ es, e.id = 1
  parents : ∀ e ∈ es, e.id ≠ 1 → HasParent es e
  siblings : ((es.filter (·.id ≠ 1)).map Entry.place).Nodup
  layout : Contiguous 0 ((sortByOffset (fileExtents es)).map toExtent) header.dataSize.toNat

/-- Two files that share a file id are one. -/
theorem AcceptedIndex.eq_of_fileId_eq {os : Platform} {header : Header W} {es : List Entry}
    {e e' : Entry} (h : AcceptedIndex os header es) (he : e ∈ es) (he' : e' ∈ es)
    (hk : e.kind = .file) (hk' : e'.kind = .file) (hid : e.fileId = e'.fileId) : e = e' :=
  List.inj_on_of_nodup_map h.fileIds (List.mem_filter.mpr ⟨he, Entry.isFile_iff.mpr hk⟩)
    (List.mem_filter.mpr ⟨he', Entry.isFile_iff.mpr hk'⟩) hid

/-! ## The first loop -/

/-- What one iteration adds to the local variables. -/
def IndexScan.add (scan : IndexScan) (e : Entry) : IndexScan where
  ids := e.id :: scan.ids
  fileIds := if e.isFile then e.fileId :: scan.fileIds else scan.fileIds
  entries := scan.entries.insert e.id e
  children := if e.id ≠ 1 then scan.children.push e.parentId e.id else scan.children
  files := if e.isFile then scan.files ++ [(e.dataOffset, e.encryptedSize, e.id)]
    else scan.files

theorem checkRootOrName_eq_ok {os : Platform} {e : Entry} {u : Unit} :
    checkRootOrName os e = .ok u ↔
      if e.id = 1 then e.parentId = 1 ∧ e.depth = 0 ∧ e.kind = .directory ∧ e.name = ""
      else validateName os e.name = .ok () := by
  unfold checkRootOrName
  split
  · rw [rejectIf_eq_ok]
    simp only [ne_eq, String.isEmpty_iff, not_or, not_not]
  · rfl

/-- The checks of the kind that do not look at the rest of the index. -/
def KindAccepted (e : Entry) : Prop :=
  (e.kind = .directory → e.size = 0 ∧ e.dataOffset = 0 ∧
    e.encryptedSize = 0 ∧ e.chunkCount = 0 ∧ e.fileId = ByteArr.zero 16) ∧
  (e.kind = .file → e.fileId ≠ ByteArr.zero 16 ∧
    encryptedFileSize e.size = .ok (e.chunkCount, e.encryptedSize))

theorem checkKind_eq_ok {scan scan' : IndexScan} {e : Entry} :
    checkKind scan e = .ok scan' ↔
      KindAccepted e ∧ (e.kind = .file → e.fileId ∉ scan.fileIds) ∧
      scan' = { scan with
        fileIds := if e.isFile then e.fileId :: scan.fileIds else scan.fileIds
        files := if e.isFile then scan.files ++ [(e.dataOffset, e.encryptedSize, e.id)]
          else scan.files } := by
  cases hk : e.kind with
  | directory =>
      simp only [checkKind, KindAccepted, Entry.isFile, hk, bind_eq_ok, rejectIf_eq_ok, ne_eq,
        not_or, not_not]
      constructor
      · rintro ⟨-, hdir, hs⟩
        injection hs with hs
        exact ⟨⟨fun _ => hdir, by simp⟩, by simp, by simp [← hs]⟩
      · rintro ⟨⟨hdir, -⟩, -, rfl⟩
        exact ⟨(), hdir trivial, by simp⟩
  | file =>
      simp only [checkKind, KindAccepted, Entry.isFile, hk, bind_eq_ok, rejectIf_eq_ok, ne_eq,
        not_or, not_not]
      constructor
      · rintro ⟨-, ⟨hz, hfid⟩, sizes, hsz, -, ⟨hc, he⟩, hs⟩
        injection hs with hs
        have hsizes : sizes = (e.chunkCount, e.encryptedSize) := Prod.ext hc he
        exact ⟨⟨by simp, fun _ => ⟨hz, hsizes ▸ hsz⟩⟩, fun _ => hfid, by simp [← hs]⟩
      · rintro ⟨⟨-, hfile⟩, hfid, rfl⟩
        obtain ⟨hz, hsz⟩ := hfile trivial
        exact ⟨(), ⟨hz, hfid trivial⟩, _, hsz, (), ⟨rfl, rfl⟩, by simp⟩

theorem scanEntry_eq_ok {os : Platform} {scan scan' : IndexScan} {e : Entry} :
    scanEntry os scan e = .ok scan' ↔
      EntryAccepted os e ∧ e.id ∉ scan.ids ∧
      (e.kind = .file → e.fileId ∉ scan.fileIds) ∧ scan' = scan.add e := by
  simp only [scanEntry, bind_eq_ok, rejectIf_eq_ok, gt_iff_lt, UInt32.lt_iff_toNat_lt,
    Nat.not_lt, checkRootOrName_eq_ok, checkKind_eq_ok]
  constructor
  · rintro ⟨-, h0, -, hid, -, hd, -, hr, s, ⟨hkind, hfid, rfl⟩, hs'⟩
    injection hs' with hs'
    exact ⟨⟨h0, hd, hr, hkind.1, hkind.2⟩, hid, hfid, hs'.symm⟩
  · rintro ⟨hacc, hid, hfid, rfl⟩
    exact ⟨(), hacc.id_ne_zero, (), hid, (), hacc.depth_le, (), hacc.root_or_name, _,
      ⟨⟨hacc.directory, hacc.file⟩, hfid, rfl⟩, rfl⟩

theorem fileIdsOf_cons (e : Entry) (rest : List Entry) :
    fileIdsOf (e :: rest) = if e.isFile then e.fileId :: fileIdsOf rest else fileIdsOf rest := by
  cases h : e.isFile <;> simp [fileIdsOf, h]

theorem foldlM_scanEntry_eq_ok {os : Platform} : ∀ {es : List Entry} {scan scan' : IndexScan},
    es.foldlM (scanEntry os) scan = .ok scan' ↔
      (∀ e ∈ es, EntryAccepted os e) ∧
      (es.map Entry.id).Nodup ∧ (∀ e ∈ es, e.id ∉ scan.ids) ∧
      (fileIdsOf es).Nodup ∧ (∀ f ∈ fileIdsOf es, f ∉ scan.fileIds) ∧
      scan' = es.foldl IndexScan.add scan := by
  intro es
  induction es with
  | nil =>
      intro scan scan'
      simp only [List.foldlM_nil, pure_eq_ok, fileIdsOf, List.filter_nil, List.map_nil,
        List.foldl_nil]
      simp [eq_comm]
  | cons e rest ih =>
      intro scan scan'
      have hids : (∀ x ∈ rest, x.id ∉ (scan.add e).ids) ↔
          e.id ∉ rest.map Entry.id ∧ ∀ x ∈ rest, x.id ∉ scan.ids := by
        simp only [IndexScan.add, List.mem_cons, not_or, List.mem_map, not_exists, not_and]
        exact ⟨fun h => ⟨fun x hx => (h x hx).1, fun x hx => (h x hx).2⟩,
          fun h x hx => ⟨h.1 x hx, h.2 x hx⟩⟩
      have hfiles : (e.kind = .file → e.fileId ∉ scan.fileIds) ∧ (fileIdsOf rest).Nodup ∧
            (∀ f ∈ fileIdsOf rest, f ∉ (scan.add e).fileIds) ↔
          (fileIdsOf (e :: rest)).Nodup ∧ ∀ f ∈ fileIdsOf (e :: rest), f ∉ scan.fileIds := by
        rw [fileIdsOf_cons, ← Entry.isFile_iff]
        cases hf : e.isFile with
        | false => simp [IndexScan.add, hf]
        | true =>
            simp only [IndexScan.add, hf, if_true, List.nodup_cons, List.mem_cons,
              forall_eq_or_imp, not_or, true_imp_iff]
            constructor
            · rintro ⟨he, hnd, hrest⟩
              exact ⟨⟨fun hmem => (hrest _ hmem).1 rfl, hnd⟩, he, fun f hf => (hrest f hf).2⟩
            · rintro ⟨⟨hmem, hnd⟩, he, hrest⟩
              exact ⟨he, hnd, fun f hf => ⟨fun h => hmem (h ▸ hf), hrest f hf⟩⟩
      simp only [List.foldlM_cons, bind_eq_ok, scanEntry_eq_ok, ih, List.forall_mem_cons,
        List.map_cons, List.nodup_cons, List.foldl_cons]
      constructor
      · rintro ⟨s, ⟨hacc, hid, hfid, rfl⟩, hrest, hnd, hout, hfnd, hfout, rfl⟩
        have hout' := hids.mp hout
        have hfiles' := hfiles.mp ⟨hfid, hfnd, hfout⟩
        exact ⟨⟨hacc, hrest⟩, ⟨hout'.1, hnd⟩, ⟨hid, hout'.2⟩, hfiles'.1, hfiles'.2, rfl⟩
      · rintro ⟨⟨hacc, hrest⟩, ⟨hmem, hnd⟩, ⟨hid, hout⟩, hfnd, hfout, rfl⟩
        obtain ⟨hfid, hfnd', hfout'⟩ := hfiles.mpr ⟨hfnd, hfout⟩
        exact ⟨_, ⟨hacc, hid, hfid, rfl⟩, hrest, hnd, hids.mpr ⟨hmem, hout⟩, hfnd', hfout', rfl⟩

/-! ## The maps the first loop builds -/

/-- The local variables after the whole list. -/
def scanOf (es : List Entry) : IndexScan := es.foldl IndexScan.add .start

theorem scanOf_concat (es : List Entry) (e : Entry) :
    scanOf (es ++ [e]) = (scanOf es).add e := by
  simp [scanOf, List.foldl_append]

theorem scanOf_files (es : List Entry) : (scanOf es).files = fileExtents es := by
  induction es using List.reverseRecOn with
  | nil => rfl
  | append_singleton es e ih =>
      rw [scanOf_concat]
      cases h : e.isFile <;> simp [IndexScan.add, fileExtents, h, ih]

theorem scanOf_lookup {es : List Entry} (hnd : (es.map Entry.id).Nodup) {i : UInt64}
    {e : Entry} : (scanOf es).entries.lookup i = some e ↔ e ∈ es ∧ e.id = i := by
  induction es using List.reverseRecOn with
  | nil => simp [scanOf, IndexScan.start]
  | append_singleton es a ih =>
      rw [List.map_append, List.nodup_append] at hnd
      obtain ⟨hes, -, hdisj⟩ := hnd
      have hfresh : ∀ x ∈ es, x.id ≠ a.id := fun x hx =>
        hdisj _ (List.mem_map_of_mem hx) _ (by simp)
      rw [scanOf_concat]
      change AList.lookup i (AList.insert a.id a (scanOf es).entries) = some e ↔ _
      by_cases hi : i = a.id
      · subst hi
        rw [AList.lookup_insert, Option.some.injEq]
        constructor
        · rintro rfl
          simp
        · rintro ⟨he, hid⟩
          rcases List.mem_append.mp he with he | he
          · exact absurd hid (hfresh e he)
          · exact (List.mem_singleton.mp he).symm
      · rw [AList.lookup_insert_ne hi, ih hes]
        constructor
        · rintro ⟨he, hid⟩
          exact ⟨List.mem_append_left _ he, hid⟩
        · rintro ⟨he, hid⟩
          rcases List.mem_append.mp he with he | he
          · exact ⟨he, hid⟩
          · rw [List.mem_singleton.mp he] at hid
            exact absurd hid.symm hi

theorem scanOf_values {es : List Entry} (hnd : (es.map Entry.id).Nodup) :
    (scanOf es).entries.values = es.reverse := by
  induction es using List.reverseRecOn with
  | nil => rfl
  | append_singleton es a ih =>
      have hall := hnd
      rw [List.map_append, List.nodup_append] at hnd
      obtain ⟨hes, -, hdisj⟩ := hnd
      have hnone : (scanOf es).entries.lookup a.id = none := by
        rw [Option.eq_none_iff_forall_ne_some]
        intro e he
        obtain ⟨hmem, hid⟩ := (scanOf_lookup hes).mp he
        exact hdisj _ (List.mem_map_of_mem hmem) _ (by simp) hid
      rw [scanOf_concat, List.reverse_append, List.reverse_singleton, List.singleton_append,
        ← ih hes]
      exact HashMap.values_insert_of_lookup hnone a

/-- The ids of the non-root entries listed under a parent, in order. -/
def childIds (es : List Entry) (p : UInt64) : List UInt64 :=
  (es.filter fun e => e.id ≠ 1 ∧ e.parentId = p).map Entry.id

theorem scanOf_children (es : List Entry) (p : UInt64) :
    ((scanOf es).children.lookup p).getD [] = childIds es p := by
  induction es using List.reverseRecOn with
  | nil => simp [scanOf, IndexScan.start, childIds]
  | append_singleton es a ih =>
      rw [scanOf_concat, childIds, List.filter_append, List.map_append, ← childIds, ← ih]
      by_cases h1 : a.id = 1
      · simp [IndexScan.add, h1]
      · change (AList.lookup p (if a.id ≠ 1 then (scanOf es).children.push a.parentId a.id
          else (scanOf es).children)).getD [] = _
        rw [if_pos h1, HashMap.lookup_push]
        by_cases hp : p = a.parentId
        · simp [hp, h1]
        · simp [hp, Ne.symm hp, h1]

/-! ## The second loop -/

/-- What `checkParent` asks of one entry's parent. -/
def ParentOk (entries : HashMap UInt64 Entry) (e : Entry) : Prop :=
  ∃ p, entries.lookup e.parentId = some p ∧ p.kind = .directory ∧
    p.depth.toNat + 1 = e.depth.toNat

theorem checkParent_eq_ok {entries : HashMap UInt64 Entry} {seen seen' : List (UInt64 × String)}
    {e : Entry} (h1 : e.id ≠ 1) :
    checkParent entries seen e = .ok seen' ↔
      ParentOk entries e ∧ e.place ∉ seen ∧ seen' = e.place :: seen := by
  have hone : (1 : UInt32).toNat = 1 := rfl
  simp only [checkParent, if_neg h1, bind_eq_ok, ofOption_eq_ok, rejectIf_eq_ok, ne_eq,
    not_or, not_not, checkedAdd32_eq_some_iff, hone]
  constructor
  · rintro ⟨p, hp, -, ⟨hk, hd⟩, -, hseen, hs⟩
    injection hs with hs
    exact ⟨⟨p, hp, hk, hd.symm⟩, hseen, hs.symm⟩
  · rintro ⟨⟨p, hp, hk, hd⟩, hseen, rfl⟩
    exact ⟨p, hp, (), ⟨hk, hd.symm⟩, (), hseen, rfl⟩

/-- The places of the entries below the root, in order. -/
def placesOf (es : List Entry) : List (UInt64 × String) :=
  (es.filter (·.id ≠ 1)).map Entry.place

theorem foldlM_checkParent_eq_ok {entries : HashMap UInt64 Entry} :
    ∀ {es : List Entry} {seen : List (UInt64 × String)},
      (∃ seen', es.foldlM (checkParent entries) seen = .ok seen') ↔
        (∀ e ∈ es, e.id ≠ 1 → ParentOk entries e) ∧
        (placesOf es).Nodup ∧ ∀ x ∈ placesOf es, x ∉ seen := by
  intro es
  induction es with
  | nil =>
      intro seen
      simp [placesOf, pure, Except.pure]
  | cons e rest ih =>
      intro seen
      simp only [List.foldlM_cons, bind_eq_ok]
      by_cases h1 : e.id = 1
      · have hstep : checkParent entries seen e = .ok seen := by rw [checkParent, if_pos h1]
        have hplaces : placesOf (e :: rest) = placesOf rest := by simp [placesOf, h1]
        rw [hplaces, List.forall_mem_cons]
        simp only [hstep, Except.ok.injEq, exists_eq_left', ih]
        simp [h1]
      · have hplaces : placesOf (e :: rest) = e.place :: placesOf rest := by simp [placesOf, h1]
        rw [hplaces, List.forall_mem_cons, List.nodup_cons, List.forall_mem_cons]
        simp only [checkParent_eq_ok h1]
        constructor
        · rintro ⟨out, s, ⟨hpar, hseen, rfl⟩, hrest⟩
          obtain ⟨hall, hnd, hout⟩ := ih.mp ⟨out, hrest⟩
          simp only [List.mem_cons, not_or] at hout
          exact ⟨⟨fun _ => hpar, hall⟩, ⟨fun hmem => (hout _ hmem).1 rfl, hnd⟩, hseen,
            fun x hx => (hout x hx).2⟩
        · rintro ⟨⟨hpar, hall⟩, ⟨hmem, hnd⟩, hseen, hout⟩
          have hfresh : ∀ x ∈ placesOf rest, x ∉ e.place :: seen := by
            intro x hx hin
            rcases List.mem_cons.mp hin with rfl | hin
            · exact hmem hx
            · exact hout x hx hin
          obtain ⟨out, hrest⟩ := ih.mpr ⟨hall, hnd, hfresh⟩
          exact ⟨out, _, ⟨hpar h1, hseen, rfl⟩, hrest⟩

/-! ## The layout loop -/

theorem checkContiguous_eq_ok {a b : UInt64} {f : UInt64 × UInt64 × UInt64} :
    checkContiguous a f = .ok b ↔ f.1 = a ∧ b.toNat = a.toNat + f.2.1.toNat := by
  simp only [checkContiguous, bind_eq_ok, rejectIf_eq_ok, ne_eq, not_not, ofOption_eq_ok,
    checkedAdd_eq_some_iff]
  constructor
  · rintro ⟨_, h, hb⟩
    exact ⟨h, hb⟩
  · rintro ⟨h, hb⟩
    exact ⟨(), h, hb⟩

theorem foldlM_checkContiguous_eq_ok : ∀ {fs : List (UInt64 × UInt64 × UInt64)} {a b : UInt64},
    fs.foldlM checkContiguous a = .ok b ↔ Contiguous a.toNat (fs.map toExtent) b.toNat := by
  intro fs
  induction fs with
  | nil =>
      intro a b
      simp [Contiguous, UInt64.toNat_inj]
  | cons f rest ih =>
      intro a b
      simp only [List.foldlM_cons, bind_eq_ok, checkContiguous_eq_ok, ih, List.map_cons,
        Contiguous, toExtent]
      constructor
      · rintro ⟨m, ⟨rfl, hm⟩, hrest⟩
        exact ⟨rfl, hm ▸ hrest⟩
      · rintro ⟨hoff, hrest⟩
        have hle := Contiguous.le hrest
        have hb := b.toNat_lt
        obtain ⟨m, hm⟩ := exists_toNat_eq (n := a.toNat + f.2.1.toNat) (by omega)
        exact ⟨m, ⟨UInt64.toNat_inj.mp hoff, hm⟩, hm ▸ hrest⟩

/-! ## The whole validator -/

/-- The maps `validate_index` returns for a list it accepts. -/
def indexOf (es : List Entry) : ValidatedIndex := ⟨(scanOf es).entries, (scanOf es).children⟩

theorem parentOk_scanOf {es : List Entry} (hnd : (es.map Entry.id).Nodup) (e : Entry) :
    ParentOk (scanOf es).entries e ↔ HasParent es e := by
  simp only [ParentOk, HasParent, scanOf_lookup hnd, and_assoc]

/-- **The validator, without its loops.** -/
theorem validateIndex_eq_ok {ω : IterOrder} {os : Platform} {header : Header W}
    {index : Index} {v : ValidatedIndex} :
    validateIndex ω os header index = .ok v ↔
      AcceptedIndex os header index.entries ∧ v = indexOf index.entries := by
  have hvals (es : List Entry) (hnd : (es.map Entry.id).Nodup) :
      (∃ seen, (ω.arrange (scanOf es).entries.values).foldlM
          (checkParent (scanOf es).entries) [] = .ok seen) ↔
        (∀ e ∈ es, e.id ≠ 1 → HasParent es e) ∧ (placesOf es).Nodup := by
    have hperm : (ω.arrange (scanOf es).entries.values).Perm es := by
      rw [scanOf_values hnd]
      exact (ω.perm _).trans es.reverse_perm
    rw [foldlM_checkParent_eq_ok]
    have hplaces : (placesOf (ω.arrange (scanOf es).entries.values)).Perm (placesOf es) :=
      (hperm.filter _).map _
    simp only [hperm.mem_iff, parentOk_scanOf hnd, hplaces.nodup_iff, List.not_mem_nil,
      not_false_iff, implies_true, and_true]
  simp only [validateIndex, bind_eq_ok, rejectIf_eq_ok, ofOption_eq_ok,
    foldlM_scanEntry_eq_ok, foldlM_checkContiguous_eq_ok, ne_eq, not_or, not_not, gt_iff_lt,
    Nat.not_lt]
  constructor
  · rintro ⟨-, ⟨hcount, hmax⟩, scan, ⟨hacc, hids, -, hfids, -, rfl⟩, root, hroot, -, hdir,
      seen, hseen, off, hoff, -, rfl, hv⟩
    injection hv with hv
    have hloop := (hvals index.entries hids).mp ⟨seen, hseen⟩
    refine ⟨⟨hcount, hmax, hacc, hids, hfids, ⟨root, (scanOf_lookup hids).mp hroot⟩,
      hloop.1, hloop.2, ?_⟩, hv.symm⟩
    have hfiles := scanOf_files index.entries
    rw [scanOf] at hfiles
    rw [hfiles] at hoff
    exact hoff
  · rintro ⟨hacc, rfl⟩
    obtain ⟨root, hmem, hid⟩ := hacc.root
    obtain ⟨seen, hseen⟩ := (hvals index.entries hacc.ids).mpr ⟨hacc.parents, hacc.siblings⟩
    have hrootdir : root.kind = .directory := by
      have hr := (hacc.entries root hmem).root_or_name
      rw [if_pos hid] at hr
      exact hr.2.2.1
    refine ⟨(), ⟨hacc.count, hacc.count_le⟩, scanOf index.entries,
      ⟨hacc.entries, hacc.ids, by simp [IndexScan.start], hacc.fileIds,
        by simp [IndexScan.start], rfl⟩,
      root, (scanOf_lookup hacc.ids).mpr ⟨hmem, hid⟩, (), hrootdir, seen, hseen,
      header.dataSize, ?_, (), rfl, rfl⟩
    rw [scanOf_files]
    exact hacc.layout

end CipherFS.V2
