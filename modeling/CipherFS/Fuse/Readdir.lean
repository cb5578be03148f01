import CipherFS.Framework.Paging
import CipherFS.Core.ReadOnlyFs.Listing
import CipherFS.Core.ReadOnlyFs.ConcurrentLoads
import CipherFS.WinFsp.Paging

/-!
# The FUSE file system

The requests that the kernel makes of a mounted container. A directory is listed
from the offset that the kernel has reached; every request builds the listing
anew.
-/

namespace CipherFS.Fuse

open V2 ReadOnlyFs

/-! ## Replies -/

/-- `fuser::FileType`, as far as it is used. -/
inductive FileType where
  | regularFile
  | directory
deriving DecidableEq, Repr

/-- The error numbers of `fuse_error`. -/
inductive Errno where
  | enoent
  | enotdir
  | eisdir
  | eio
deriving DecidableEq, Repr

/-- `fuse_error`. -/
def fuseError (error : FsError) : Errno :=
  match error.kind with
  | .notFound => .enoent
  | .notDirectory => .enotdir
  | .isDirectory => .eisdir
  | .integrity => .eio

/-- `FileAttr`. -/
structure FileAttr where
  ino : UInt64
  size : UInt64
  blocks : UInt64
  kind : FileType
  perm : UInt16
  nlink : UInt32
deriving DecidableEq, Repr

/-- `div_ceil`. -/
def divCeil (a b : UInt64) : UInt64 := if a % b = 0 then a / b else a / b + 1

/-- `node_attr`. -/
def nodeAttr (entry : Node) : FileAttr :=
  let directory := entry.kind = .directory
  { ino := entry.id
    size := entry.size
    blocks := divCeil entry.size 512
    kind := if directory then .directory else .regularFile
    perm := if directory then 0o555 else 0o444
    nlink := if directory then 2 else 1 }

/-- What `ReplyDirectory::add` is given. -/
structure DirEntry where
  ino : UInt64
  offset : UInt64
  kind : FileType
  name : String
deriving DecidableEq, Repr

/-- `ReplyDirectory` of the `fuser` crate: the buffer with one entry more, if there is
room for it. -/
structure ReplyDirectory (B : Type) where
  add : B → DirEntry → Option B

/-! ## Listing a directory -/

/-- The rows of the listing that `readdir` builds. -/
def rowsOf (node : Node) (children : List Node) : List (UInt64 × String × FileType) :=
  (node.id, ".", .directory) :: (node.parentId, "..", .directory) ::
    children.map fun child =>
      (child.id, child.name, if child.kind = .file then .regularFile else .directory)

/-- The rows as they are added: each with the position behind it. -/
def listingOf (rows : List (UInt64 × String × FileType)) : List DirEntry :=
  rows.zipIdx.map fun row => ⟨row.1.1, UInt64.ofNat (row.2 + 1), row.1.2.2, row.1.2.1⟩

/-- The loop of `readdir`: the entries that the buffer takes. -/
def addEntries {B : Type} (api : ReplyDirectory B) : B → List DirEntry → List DirEntry
  | _, [] => []
  | buffer, entry :: rest =>
    match api.add buffer entry with
    | none => []
    | some buffer => entry :: addEntries api buffer rest

/-- `readdir`. -/
def readdir {B : Type} (api : ReplyDirectory B) (index : ValidatedIndex) (ino offset : UInt64)
    (reply : B) : Except Errno (List DirEntry) := do
  let node ← (nodeMetadata index ino).mapError fuseError
  let children ← (readDir index ino).mapError fuseError
  let listing := listingOf (rowsOf node children)
  .ok (addEntries api reply (listing.drop offset.toNat))

/-! ## Requests -/

/-- A mounted container. -/
structure Mount (W : Type) where
  opened : OpenedContainer W
  loads : Loads

/-- A request of the kernel; a name may not be UTF-8. A `read` is seen at its locked
sections. -/
inductive Request (B : Type) where
  | lookup (parent : UInt64) (name : Option String)
  | getattr (ino : UInt64)
  | readdir (ino offset : UInt64) (reply : B)
  | load (action : LoadAction)

/-- A reply to the kernel. -/
inductive Reply where
  | attr (reply : Except Errno FileAttr)
  | directory (reply : Except Errno (List DirEntry))
  | data (reply : Option (Except Errno Bytes))

variable {B Key W : Type} (C : Crypto Key W) (api : ReplyDirectory B)

/-- A request and its reply. Only a `read` changes anything, and that is the cache. -/
def Mount.handle (m : Mount W) : Request B → Reply × Mount W
  | .lookup _ none => (.attr (.error .enoent), m)
  | .lookup parent (some name) =>
      (.attr (((nodeLookup m.opened.index parent name).map nodeAttr).mapError fuseError), m)
  | .getattr ino =>
      (.attr (((nodeMetadata m.opened.index ino).map nodeAttr).mapError fuseError), m)
  | .readdir ino offset reply => (.directory (readdir api m.opened.index ino offset reply), m)
  | .load action =>
      (.data ((action.returned (decryptChunk C m.opened) m.loads).map (·.mapError fuseError)),
        ⟨m.opened, (m.loads.step (decryptChunk C m.opened) action).getD m.loads⟩)

/-- What happens at the mount while one reader goes through a directory: its own
requests, each with a buffer, and any others. -/
inductive Call (B : Type) where
  | next (reply : B)
  | other (request : Request B)

/-- The buffers of the reader's own requests. -/
def Call.buffers (calls : List (Call B)) : List B :=
  calls.filterMap fun
    | .next reply => some reply
    | .other _ => none

/-- The offset that the last accepted entry carries. -/
def nextOffset (offset : UInt64) (page : Except Errno (List DirEntry)) : UInt64 :=
  match page with
  | .ok entries => (entries.getLast?.map DirEntry.offset).getD offset
  | .error _ => offset

/-- The replies to a reader of a directory. -/
def Mount.readAll (m : Mount W) (ino : UInt64) :
    UInt64 → List (Call B) → List (Except Errno (List DirEntry))
  | _, [] => []
  | offset, .next reply :: calls =>
      let page := readdir api m.opened.index ino offset reply
      page :: m.readAll ino (nextOffset offset page) calls
  | offset, .other request :: calls => (m.handle C api request).2.readAll ino offset calls

/-! ## One page -/

variable {api} {rows : List (UInt64 × String × FileType)}

theorem addEntries_start : ∀ (buffer : B) (rest : List DirEntry),
    addEntries api buffer rest <+: rest
  | _, [] => List.prefix_refl _
  | buffer, entry :: rest => by
      rw [addEntries]
      split
      · exact List.nil_prefix
      · exact List.cons_prefix_cons.mpr ⟨rfl, addEntries_start _ rest⟩

variable (api) in
/-- The pages of a directory. -/
def direntPager : Pager DirEntry B where
  fill := addEntries api
  fits buffer entry := (api.add buffer entry).isSome
  fill_start := addEntries_start
  fill_ne_nil buffer entry rest h := by
    obtain ⟨buffer', hbuffer⟩ := Option.isSome_iff_exists.mp h
    rw [addEntries, hbuffer]
    exact List.cons_ne_nil _ _

@[simp] theorem length_listingOf : (listingOf rows).length = rows.length := by
  rw [listingOf, List.length_map, List.length_zipIdx]

/-- An entry carries the position behind it. -/
theorem offset_of_getElem? {k : Nat} {entry : DirEntry} (h : (listingOf rows)[k]? = some entry) :
    entry.offset = UInt64.ofNat (k + 1) := by
  rw [listingOf, List.getElem?_map, List.getElem?_zipIdx, Option.map_map] at h
  obtain ⟨row, -, rfl⟩ := Option.map_eq_some_iff.mp h
  rw [Nat.zero_add]
  rfl

/-- The offset that a page leads to is behind the page. -/
theorem nextOffset_eq {k : Nat} {page : List DirEntry} (hpage : page <+: (listingOf rows).drop k) :
    nextOffset (UInt64.ofNat k) (.ok page) = UInt64.ofNat (k + page.length) := by
  cases hlast : page.getLast? with
  | none =>
      have hempty := List.getLast?_eq_none_iff.mp hlast
      rw [nextOffset, hlast, hempty]
      rfl
  | some last =>
      have hpos : 0 < page.length := by
        refine List.length_pos_of_ne_nil ?_
        rintro rfl
        cases hlast
      have hentry : (listingOf rows)[k + (page.length - 1)]? = some last := by
        obtain ⟨tail, htail⟩ := hpage
        rw [← List.getElem?_drop, ← htail, List.getElem?_append_left (by omega),
          ← List.getLast?_eq_getElem?, hlast]
      have hsum : k + (page.length - 1) + 1 = k + page.length := by omega
      rw [nextOffset, hlast, Option.map_some, Option.getD_some, offset_of_getElem? hentry, hsum]

/-! ## All pages -/

variable {m : Mount W} {index : ValidatedIndex}

/-- No request changes what is mounted. -/
theorem Mount.handle_opened (m : Mount W) (request : Request B) :
    (m.handle C api request).2.opened = m.opened := by
  cases request with
  | lookup parent name => cases name <;> rfl
  | getattr ino => rfl
  | readdir ino offset reply => rfl
  | load action => rfl

theorem readdir_eq {ino offset : UInt64} {node : Node} {children : List Node}
    (hnode : nodeMetadata index ino = .ok node) (hread : readDir index ino = .ok children)
    (reply : B) : readdir api index ino offset reply =
      .ok (addEntries api reply ((listingOf (rowsOf node children)).drop offset.toNat)) := by
  rw [readdir, hnode, hread]
  rfl

/-- **Whatever else is asked for, a reader gets the pages of the listing.** -/
theorem readAll_eq {ino : UInt64} {node : Node} {children : List Node}
    (hnode : nodeMetadata index ino = .ok node) (hread : readDir index ino = .ok children)
    (hsize : (rowsOf node children).length < 2 ^ 64) :
    ∀ (calls : List (Call B)) {m : Mount W} {k : Nat}, m.opened.index = index →
      k ≤ (rowsOf node children).length →
      m.readAll C api ino (UInt64.ofNat k) calls = ((direntPager api).allPages (Call.buffers calls)
        ((listingOf (rowsOf node children)).drop k)).map .ok
  | [], _, _, _, _ => rfl
  | .other request :: calls, m, k, hm, hk => by
      have hm' : (m.handle C api request).2.opened.index = index := by
        rw [Mount.handle_opened, hm]
      exact readAll_eq hnode hread hsize calls hm' hk
  | .next reply :: calls, m, k, hm, hk => by
      have hlt : k < UInt64.size := Nat.lt_of_le_of_lt hk hsize
      have hoffset : (UInt64.ofNat k).toNat = k := UInt64.toNat_ofNat_of_lt' hlt
      have hpage : readdir api index ino (UInt64.ofNat k) reply = .ok (addEntries api reply
          ((listingOf (rowsOf node children)).drop (UInt64.ofNat k).toNat)) :=
        readdir_eq hnode hread reply
      rw [hoffset] at hpage
      have hstart : addEntries api reply ((listingOf (rowsOf node children)).drop k) <+:
          (listingOf (rowsOf node children)).drop k := addEntries_start _ _
      rw [Mount.readAll, hm, hpage, nextOffset_eq hstart]
      have hle := hstart.length_le
      rw [List.length_drop, length_listingOf] at hle
      rw [readAll_eq hnode hread hsize calls hm (by omega), ← List.drop_drop]
      rfl

/-! ## The directories of an index -/

variable {os : Platform} {header : Header W} {es : List Entry}

theorem length_childNodes_le (h : AcceptedIndex os header es) (id : UInt64) :
    (childNodes es id).length ≤ 5000000 := by
  rw [(WinFsp.childNodes_perm h id).length_eq, List.length_map]
  exact (List.length_filter_le _ _).trans h.count_le

variable (api) in
/-- **Paging through a mounted directory is complete.** Its listing is `.`, `..` and
its children, each once and in the order of their names. A reader whose buffers
take at least the next entry gets the listing in as many calls as it has entries,
whatever else is asked of the mount, and an empty page exactly where it has all. -/
theorem readdir_paging_complete {ω : IterOrder} {index : Index} {v : ValidatedIndex} {e : Entry}
    (hindex : validateIndex ω os header index = .ok v) (he : e ∈ index.entries)
    (hkind : e.kind = .directory) :
    ∃ children : List Node,
      children.Perm
        ((index.entries.filter fun c => c.id ≠ 1 ∧ c.parentId = e.id).map Node.ofEntry) ∧
      (children.Pairwise fun a b => a.name < b.name) ∧
      ∀ (m : Mount W), m.opened.index = v → ∀ calls : List (Call B),
        (direntPager api).LargeEnough (Call.buffers calls)
          (listingOf (rowsOf (Node.ofEntry e) children)) →
        ∃ pages : List (List DirEntry),
          m.readAll C api e.id 0 calls = pages.map .ok ∧
          pages.length = (Call.buffers calls).length ∧
          pages.flatten <+: listingOf (rowsOf (Node.ofEntry e) children) ∧
          (children.length + 2 ≤ pages.length →
            pages.flatten = listingOf (rowsOf (Node.ofEntry e) children)) ∧
          ∀ before page after, pages = before ++ page :: after →
            (page = [] ↔ before.flatten = listingOf (rowsOf (Node.ofEntry e) children)) := by
  obtain ⟨h, rfl⟩ := validateIndex_eq_ok.mp hindex
  refine ⟨childNodes index.entries e.id, WinFsp.childNodes_perm h e.id, childNodes_sorted h e.id, ?_⟩
  intro m hm calls hlarge
  have hrows : (rowsOf (Node.ofEntry e) (childNodes index.entries e.id)).length =
      (childNodes index.entries e.id).length + 2 := by
    rw [rowsOf, List.length_cons, List.length_cons, List.length_map]
  have hsize := length_childNodes_le h e.id
  have hread : m.readAll C api e.id 0 calls = ((direntPager api).allPages (Call.buffers calls)
      ((listingOf (rowsOf (Node.ofEntry e) (childNodes index.entries e.id))).drop 0)).map .ok :=
    readAll_eq C (nodeMetadata_of_mem h he) (readDir_directory h he hkind) (by rw [hrows]; omega)
      calls hm (Nat.zero_le _)
  rw [List.drop_zero] at hread
  refine ⟨_, hread, Pager.length_allPages _ _, Pager.flatten_allPages_start _ _, ?_, ?_⟩
  · intro hcalls
    rw [Pager.length_allPages] at hcalls
    exact Pager.flatten_allPages hlarge (by rw [length_listingOf, hrows]; exact hcalls)
  · intro before page after hpages
    exact Pager.page_eq_nil_iff hlarge hpages

/-- Buffers that hold a number of entries. -/
def countingReply : ReplyDirectory Nat where
  add buffer _ := if buffer = 0 then none else some (buffer - 1)

/-- The root of the sample container in two pages, with a look at the root between
them. -/
theorem readdir_paging_complete_sample : ∃ pages : List (List DirEntry),
    Mount.readAll clearCrypto countingReply ⟨sampleOpened, .start 0⟩ 1 0
      [.next 2, .other (.getattr 1), .next 1, .next 1] = pages.map .ok ∧
    pages.flatten = [⟨1, 1, .directory, "."⟩, ⟨1, 2, .directory, ".."⟩, ⟨2, 3, .directory, "docs"⟩] := by
  have hvalid : validateIndex .stored .unix (sampleHeader (ByteArr.zero 48)) sampleIndex =
      .ok (indexOf sampleIndex.entries) := validateIndex_eq_ok.mpr ⟨sampleIndex_accepted _, rfl⟩
  obtain ⟨children, hperm, -, hpages⟩ := readdir_paging_complete clearCrypto countingReply hvalid
    (List.mem_cons_self : sampleRoot ∈ sampleIndex.entries) rfl
  have hchildren : ((sampleIndex.entries.filter fun c =>
      c.id ≠ 1 ∧ c.parentId = sampleRoot.id).map Node.ofEntry) = [Node.ofEntry sampleDirectory] := by
    decide
  rw [hchildren, List.perm_singleton] at hperm
  subst hperm
  obtain ⟨pages, hread, hlen, -, hall, -⟩ := hpages ⟨sampleOpened, .start 0⟩ rfl
    [.next 2, .other (.getattr 1), .next 1, .next 1]
    ⟨fun _ _ => rfl, fun _ _ => rfl, nofun, trivial⟩
  exact ⟨pages, hread, hall (Nat.le_of_eq hlen.symm)⟩

end CipherFS.Fuse
