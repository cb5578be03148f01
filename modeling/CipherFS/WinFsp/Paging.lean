import CipherFS.Framework.StableSort
import CipherFS.Framework.Paging
import CipherFS.WinFsp.Names

/-!
# Reading a directory page by page

`read_directory` sorts the children by their display names and goes on behind
the one that the marker names. Since no two children share a name, the marker
finds exactly the child that was returned last.
-/

namespace CipherFS.WinFsp

open V2 ReadOnlyFs StableSort WindowsNames

variable {K B W : Type} [LinearOrder K] {ordinal : String → K}

/-- `DirInfo` of the `winfsp` crate: whether a name can be set, where the cursor is
after an entry has been appended, if there is room for it, and where it is after
the mark that `finalize_buffer` puts behind the entries. -/
structure DirInfo (B : Type) where
  setName : String → Except NtStatus Unit
  appendToBuffer : B → Nat → Node → String → Option Nat
  finalizeBuffer : B → Nat → Nat

/-- What `read_directory` leaves in the buffer: the entries, and the cursor. -/
structure DirPage where
  entries : List Node
  cursor : Nat

/-- The order of `read_directory`: `compare_display_names`, then the ids. -/
def displayLe (ordinal : String → K) (names : WindowsNameMap K) (left right : Node) : Bool :=
  ordinal (names.name left) < ordinal (names.name right) ∨
    ordinal (names.name left) = ordinal (names.name right) ∧ left.id ≤ right.id

/-- `start`. An empty marker, or one that no child is shown under, starts over. -/
def startOf (ordinal : String → K) (names : WindowsNameMap K) (children : List Node)
    (marker : String) : Nat :=
  if marker.isEmpty then 0
  else
    match children.findIdx? fun child => Equivalent ordinal (names.name child) marker with
    | some position => position + 1
    | none => 0

/-- The loop of `read_directory`: the children that it appends. -/
def appendChildren (api : DirInfo B) (names : WindowsNameMap K) (buffer : B) :
    List Node → Nat → Except NtStatus DirPage
  | [], cursor => .ok ⟨[], cursor⟩
  | child :: rest, cursor => do
    api.setName (names.name child)
    match api.appendToBuffer buffer cursor child (names.name child) with
    | none => .ok ⟨[], cursor⟩
    | some cursor => do
      let page ← appendChildren api names buffer rest cursor
      .ok { page with entries := child :: page.entries }

/-- `WinFspCipherFs::read_directory`. -/
def WinFspCipherFs.readDirectory (ordinal : String → K) (api : DirInfo B) (fs : WinFspCipherFs K)
    (context : Node) (marker : Option String) (buffer : B) : Except NtStatus DirPage :=
  if context.kind ≠ .directory then .error .notADirectory
  else do
    let children ← (readDir fs.core context.id).mapError mapError
    let children := children.mergeSort (displayLe ordinal fs.names)
    let start := startOf ordinal fs.names children (marker.getD "")
    let page ← appendChildren api fs.names buffer (children.drop start) 0
    .ok { page with cursor := api.finalizeBuffer buffer page.cursor }

/-- A reader: no marker at first, then the last name that it was given, until a
page is empty or there are no more buffers. -/
def WinFspCipherFs.readAll (ordinal : String → K) (api : DirInfo B) (fs : WinFspCipherFs K)
    (context : Node) : Option String → List B → Except NtStatus (List (List Node))
  | _, [] => .ok []
  | marker, buffer :: buffers => do
    let page ← fs.readDirectory ordinal api context marker buffer
    match page.entries.getLast? with
    | none => .ok [[]]
    | some last => do
      let pages ← fs.readAll ordinal api context (some (fs.names.name last)) buffers
      .ok (page.entries :: pages)

/-! ## One page -/

variable {api : DirInfo B} {names : WindowsNameMap K}

/-- As much of a list as a buffer takes. -/
def takeFrom (api : DirInfo B) (names : WindowsNameMap K) (buffer : B) : List Node → Nat → List Node
  | [], _ => []
  | child :: rest, cursor =>
    match api.appendToBuffer buffer cursor child (names.name child) with
    | none => []
    | some cursor => child :: takeFrom api names buffer rest cursor

omit [LinearOrder K] in
theorem takeFrom_prefix (buffer : B) : ∀ (rest : List Node) (cursor : Nat),
    takeFrom api names buffer rest cursor <+: rest
  | [], _ => List.prefix_refl _
  | child :: rest, cursor => by
      rw [takeFrom]
      split
      · exact List.nil_prefix
      · exact List.cons_prefix_cons.mpr ⟨rfl, takeFrom_prefix buffer rest _⟩

omit [LinearOrder K] in
theorem appendChildren_eq (buffer : B) : ∀ {rest : List Node} {cursor : Nat},
    (∀ child ∈ rest, api.setName (names.name child) = .ok ()) → ∃ cursor',
      appendChildren api names buffer rest cursor =
        .ok ⟨takeFrom api names buffer rest cursor, cursor'⟩
  | [], cursor, _ => ⟨cursor, rfl⟩
  | child :: rest, cursor, h => by
      rw [List.forall_mem_cons] at h
      rw [appendChildren, takeFrom, h.1, Result.ok_bind]
      cases api.appendToBuffer buffer cursor child (names.name child) with
      | none => exact ⟨cursor, rfl⟩
      | some next =>
          obtain ⟨cursor', hrest⟩ : ∃ cursor', appendChildren api names buffer rest next =
              .ok ⟨takeFrom api names buffer rest next, cursor'⟩ := appendChildren_eq buffer h.2
          refine ⟨cursor', ?_⟩
          dsimp only
          rw [hrest]
          rfl

/-- The pages of a directory. -/
def displayPager (api : DirInfo B) (names : WindowsNameMap K) : Pager Node B where
  fill buffer rest := takeFrom api names buffer rest 0
  fits buffer child := (api.appendToBuffer buffer 0 child (names.name child)).isSome
  fill_start buffer rest := takeFrom_prefix buffer rest 0
  fill_ne_nil buffer child rest h := by
    obtain ⟨cursor, hcursor⟩ := Option.isSome_iff_exists.mp h
    rw [takeFrom, hcursor]
    exact List.cons_ne_nil _ _

/-! ## The listing -/

/-- A listing in the strict order of its display names, none of them empty. -/
structure Listing (ordinal : String → K) (names : WindowsNameMap K) (listing : List Node) :
    Prop where
  ordered : listing.Pairwise fun a b => ordinal (names.name a) < ordinal (names.name b)
  nonempty : ∀ child ∈ listing, names.name child ≠ ""

/-- The marker of a child leads behind it. -/
theorem startOf_name {listing : List Node} (h : Listing ordinal names listing) {k : Nat}
    {child : Node} (hk : listing[k]? = some child) :
    startOf ordinal names listing (names.name child) = k + 1 := by
  obtain ⟨hlt, rfl⟩ := List.getElem?_eq_some_iff.mp hk
  have hname : ¬(names.name listing[k]).isEmpty := by
    rw [String.isEmpty_iff]
    exact h.nonempty _ (List.getElem_mem hlt)
  have hfind : listing.findIdx? (fun child =>
      Equivalent ordinal (names.name child) (names.name listing[k])) = some k := by
    refine List.findIdx?_eq_some_iff_getElem.mpr ⟨hlt, decide_eq_true rfl, fun j hj => ?_⟩
    rw [decide_eq_true_eq]
    exact (List.pairwise_iff_getElem.mp h.ordered j k (by omega) hlt hj).ne
  rw [startOf, if_neg hname, hfind]

/-! ## All pages -/

variable {fs : WinFspCipherFs K} {context : Node}

/-- **Reading a directory gives the pages of its listing.** -/
theorem readAll_eq {children : List Node} (hkind : context.kind = .directory)
    (hread : readDir fs.core context.id = .ok children)
    (hlisting : Listing ordinal fs.names (children.mergeSort (displayLe ordinal fs.names)))
    (hset : ∀ child ∈ children, api.setName (fs.names.name child) = .ok ()) :
    ∀ (buffers : List B) (marker : Option String) (k : Nat),
      startOf ordinal fs.names (children.mergeSort (displayLe ordinal fs.names))
        (marker.getD "") = k →
      fs.readAll ordinal api context marker buffers = .ok ((displayPager api fs.names).pages buffers
        ((children.mergeSort (displayLe ordinal fs.names)).drop k)) := by
  generalize hsorted : children.mergeSort (displayLe ordinal fs.names) = listing at hlisting ⊢
  have hmem : ∀ child ∈ listing, api.setName (fs.names.name child) = .ok () := by
    intro child hchild
    rw [← hsorted, List.mem_mergeSort] at hchild
    exact hset child hchild
  intro buffers
  induction buffers with
  | nil => exact fun _ _ _ => rfl
  | cons buffer rest ih =>
      intro marker k hstart
      have hpage : ∃ cursor, fs.readDirectory ordinal api context marker buffer =
          .ok ⟨(displayPager api fs.names).fill buffer (listing.drop k), cursor⟩ := by
        obtain ⟨cursor, happend⟩ : ∃ cursor, appendChildren api fs.names buffer (listing.drop k) 0 =
            .ok ⟨takeFrom api fs.names buffer (listing.drop k) 0, cursor⟩ :=
          appendChildren_eq buffer fun child hchild => hmem child (List.mem_of_mem_drop hchild)
        refine ⟨api.finalizeBuffer buffer cursor, ?_⟩
        rw [WinFspCipherFs.readDirectory, if_neg (not_not.mpr hkind), hread]
        show (appendChildren api fs.names buffer
          ((children.mergeSort (displayLe ordinal fs.names)).drop _) 0 >>= _) = _
        rw [hsorted, hstart, happend]
        rfl
      obtain ⟨cursor, hpage⟩ := hpage
      rw [WinFspCipherFs.readAll, hpage, Result.ok_bind, Pager.pages]
      have hprefix := (displayPager api fs.names).fill_start buffer (listing.drop k)
      generalize (displayPager api fs.names).fill buffer (listing.drop k) = page at hprefix ⊢
      cases hlast : page.getLast? with
      | none =>
          rw [if_pos (List.getLast?_eq_none_iff.mp hlast)]
      | some last =>
          have hne : page ≠ [] := by
            rintro rfl
            cases hlast
          have hpos := List.length_pos_of_ne_nil hne
          have hnext : listing[k + (page.length - 1)]? = some last := by
            obtain ⟨tail, htail⟩ := hprefix
            rw [← List.getElem?_drop, ← htail, List.getElem?_append_left (by omega),
              ← List.getLast?_eq_getElem?, hlast]
          have hsum : k + (page.length - 1) + 1 = k + page.length := by omega
          dsimp only
          rw [if_neg hne, ih (some (fs.names.name last)) _ (startOf_name hlisting hnext),
            Result.ok_bind, List.drop_drop, hsum]

/-! ## The directories of an index -/

variable {os : Platform} {header : Header W} {es : List Entry} {nodes : List Node} {fuel : Nat}
  {map : WindowsNameMap K}

theorem child_below (h : AcceptedIndex os header es) (hnodes : nodes.Perm (es.map Node.ofEntry))
    {id : UInt64} {c : Node} (hc : c ∈ childNodes es id) :
    c ∈ nodes ∧ c.id ≠ c.parentId ∧ c.parentId = id := by
  obtain ⟨e, he, h1, hp, rfl⟩ := (mem_childNodes h).mp hc
  exact ⟨hnodes.mem_iff.mpr (List.mem_map_of_mem he), (below_root_iff h he).mpr h1, hp⟩

/-- The children of a directory are the nodes of the entries below it. -/
theorem childNodes_perm (h : AcceptedIndex os header es) (id : UInt64) :
    (childNodes es id).Perm ((es.filter fun c => c.id ≠ 1 ∧ c.parentId = id).map Node.ofEntry) := by
  have hids := (map_id_childNodes_perm h id).nodup_iff.mpr (h.nodup_childIds id)
  have hids' : ((es.filter fun c => c.id ≠ 1 ∧ c.parentId = id).map Node.ofEntry).Nodup := by
    refine List.Nodup.of_map Node.id ?_
    rw [List.map_map]
    exact h.ids.sublist (List.filter_sublist.map _)
  refine (List.perm_ext_iff_of_nodup hids.of_map hids').mpr fun n => ?_
  rw [mem_childNodes h, List.mem_map]
  refine exists_congr fun e => ?_
  rw [List.mem_filter, decide_eq_true_eq, and_assoc, and_assoc]

/-- The children of a directory entry in the order of their display names. -/
theorem listing_childNodes (h : AcceptedIndex os header es) (hmap : MapOf ordinal fuel nodes map)
    (hnodes : nodes.Perm (es.map Node.ofEntry)) (id : UInt64) :
    Listing ordinal map ((childNodes es id).mergeSort (displayLe ordinal map)) := by
  have hchild : ∀ c ∈ (childNodes es id).mergeSort (displayLe ordinal map),
      c ∈ nodes ∧ c.id ≠ c.parentId ∧ c.parentId = id :=
    fun c hc => child_below h hnodes (List.mem_mergeSort.mp hc)
  have hnodup : ((childNodes es id).mergeSort (displayLe ordinal map)).Nodup := by
    have hids := (map_id_childNodes_perm h id).nodup_iff.mpr (h.nodup_childIds id)
    exact (List.mergeSort_perm _ _).nodup_iff.mpr hids.of_map
  have hdistinct : ((childNodes es id).mergeSort (displayLe ordinal map)).Pairwise
      fun a b => ordinal (map.name a) ≠ ordinal (map.name b) := by
    refine hnodup.pairwise_of_forall_ne fun a ha b hb hne heq => hne ?_
    obtain ⟨hmem, hroot, hpar⟩ := hchild a ha
    obtain ⟨hmem', hroot', hpar'⟩ := hchild b hb
    exact hmap.eq_of_equivalent hmem hroot hmem' hroot' (hpar.trans hpar'.symm) heq
  constructor
  · have hsorted : ((childNodes es id).mergeSort (displayLe ordinal map)).Pairwise
        fun a b => displayLe ordinal map a b = true :=
      List.pairwise_mergeSort (keys_trans (fun a : Node => ordinal (map.name a)) Node.id)
        (keys_total (fun a : Node => ordinal (map.name a)) Node.id) _
    refine (hsorted.and hdistinct).imp fun {a b} hab => ?_
    obtain ⟨hle, hne⟩ := hab
    rcases of_decide_eq_true hle with hlt | ⟨heq, -⟩
    · exact hlt
    · exact absurd heq hne
  · intro c hc
    obtain ⟨hmem, hroot, -⟩ := hchild c hc
    exact (hmap.name_component hmem hroot).1

/-- **Paging through a directory is complete.** Its children, in the strict order of
their display names, are what the pages give, and then comes an empty page. -/
theorem directory_paging_complete {ω ω' : IterOrder} {index : Index} {v : ValidatedIndex} {e : Entry}
    (hindex : validateIndex ω os header index = .ok v)
    (hnodes : nodes.Perm (index.entries.map Node.ofEntry))
    (hnew : WindowsNameMap.new ordinal ω' fuel nodes = some map)
    (hset : ∀ name : String, utf16Len name.toList ≤ 255 → api.setName name = .ok ())
    (he : e ∈ index.entries) (hkind : e.kind = .directory) :
    ∃ listing : List Node,
      listing.Perm
        ((index.entries.filter fun c => c.id ≠ 1 ∧ c.parentId = e.id).map Node.ofEntry) ∧
      (listing.Pairwise fun a b => ordinal (map.name a) < ordinal (map.name b)) ∧
      ∀ buffers : List B, (displayPager api map).LargeEnough buffers listing →
        listing.length < buffers.length →
        ∃ pages, WinFspCipherFs.readAll ordinal api ⟨v, map⟩ (Node.ofEntry e) none buffers =
            .ok pages ∧
          pages.flatten = listing ∧ pages.getLast? = some [] := by
  obtain ⟨h, rfl⟩ := validateIndex_eq_ok.mp hindex
  have hmap := mapOf_new (nodup_ids_of_perm h hnodes) hnew
  have hlisting := listing_childNodes h hmap hnodes e.id
  refine ⟨_, (List.mergeSort_perm _ _).trans (childNodes_perm h e.id), hlisting.ordered, ?_⟩
  intro buffers hlarge hlen
  have hdir : (Node.ofEntry e).kind = .directory := by simp [Node.ofEntry, hkind]
  have hfits : ∀ c ∈ childNodes index.entries e.id, api.setName (map.name c) = .ok () := by
    intro c hc
    obtain ⟨hmem, hroot, -⟩ := child_below h hnodes hc
    exact hset _ (hmap.utf16Len_name_le hmem hroot)
  have hread : WinFspCipherFs.readAll ordinal api ⟨indexOf index.entries, map⟩ (Node.ofEntry e) none
      buffers = .ok ((displayPager api map).pages buffers
        ((childNodes index.entries e.id).mergeSort (displayLe ordinal map))) :=
    readAll_eq hdir (readDir_directory h he hkind) hlisting hfits buffers none 0 rfl
  exact ⟨_, hread, Pager.pages_complete hlarge hlen⟩

/-- Buffers that hold a number of entries; a place that is left takes the mark. -/
def countingApi : DirInfo Nat where
  setName name := if utf16Len name.toList ≤ 255 then .ok () else .error .dataError
  appendToBuffer buffer cursor _ _ := if cursor < buffer then some (cursor + 1) else none
  finalizeBuffer buffer cursor := if cursor < buffer then cursor + 1 else cursor

theorem directory_paging_complete_sample : ∃ map pages,
    @WindowsNameMap.new _ LinearOrder.toDecidableEq asciiKey .stored 3
      (sampleIndex.entries.map Node.ofEntry) = some map ∧
    WinFspCipherFs.readAll asciiKey countingApi ⟨indexOf sampleIndex.entries, map⟩
      (Node.ofEntry sampleRoot) none [1, 1] = .ok pages ∧
    pages.flatten = [Node.ofEntry sampleDirectory] ∧ pages.getLast? = some [] := by
  have hsome : (@WindowsNameMap.new _ LinearOrder.toDecidableEq asciiKey .stored 3
      (sampleIndex.entries.map Node.ofEntry)).isSome = true := by decide +kernel
  obtain ⟨map, hnew⟩ := Option.isSome_iff_exists.mp hsome
  have haccepted : validateIndex .stored .unix (sampleHeader ()) sampleIndex =
      .ok (indexOf sampleIndex.entries) := validateIndex_eq_ok.mpr ⟨sampleIndex_accepted (), rfl⟩
  have hset : ∀ name : String, utf16Len name.toList ≤ 255 → countingApi.setName name = .ok () :=
    fun name hname => if_pos hname
  obtain ⟨listing, hperm, -, hpages⟩ := directory_paging_complete haccepted (.refl _) hnew hset
    (List.mem_cons_self : sampleRoot ∈ sampleIndex.entries) rfl
  have hchildren : ((sampleIndex.entries.filter fun c =>
      c.id ≠ 1 ∧ c.parentId = sampleRoot.id).map Node.ofEntry) = [Node.ofEntry sampleDirectory] := by
    decide
  rw [hchildren, List.perm_singleton] at hperm
  subst hperm
  have hlarge : (displayPager countingApi map).LargeEnough [1, 1] [Node.ofEntry sampleDirectory] :=
    ⟨fun _ _ => rfl, nofun, trivial⟩
  obtain ⟨pages, hread, hflat, hlast⟩ := hpages [1, 1] hlarge (by decide)
  exact ⟨map, pages, hnew, hread, hflat, hlast⟩

end CipherFS.WinFsp
