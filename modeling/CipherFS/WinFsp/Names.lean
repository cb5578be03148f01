import CipherFS.Core.ReadOnlyFs.Listing
import CipherFS.Core.WindowsNames.Display
import CipherFS.WinFsp.Open

/-!
# Names on Windows

The mount lists the nodes of an index breadth first, extraction lists them in
the order of a hash map. Both name them alike, and a path of display names leads
the mount to the entry that they are shown for.
-/

namespace CipherFS.WinFsp

open V2 ReadOnlyFs WindowsNames

variable {K W : Type} [DecidableEq K] {ordinal : String → K}

/-- `NTSTATUS`, as far as `map_error` and `resolve` give one. -/
inductive NtStatus where
  | objectNameNotFound
  | notADirectory
  | fileIsADirectory
  | dataError
deriving DecidableEq, Repr

/-- `map_error`. -/
def mapError (error : FsError) : NtStatus :=
  match error.kind with
  | .notFound => .objectNameNotFound
  | .notDirectory => .notADirectory
  | .isDirectory => .fileIsADirectory
  | .integrity => .dataError

/-- `WinFspCipherFs`, as far as names go. -/
structure WinFspCipherFs (K : Type) where
  core : ValidatedIndex
  names : WindowsNameMap K

/-- `path.split('\\').filter(|part| !part.is_empty())`. -/
def components (path : String) : List String :=
  ((path.toList.splitOn '\\').filter (· ≠ [])).map String.ofList

/-- One iteration of `resolve`. -/
def resolveStep (ordinal : String → K) (names : WindowsNameMap K) (id : UInt64)
    (component : String) : Except NtStatus UInt64 :=
  match names.lookupName ordinal id component with
  | some id => .ok id
  | none => .error .objectNameNotFound

/-- `WinFspCipherFs::resolve`, on the text of the file name. -/
def WinFspCipherFs.resolve (ordinal : String → K) (fs : WinFspCipherFs K) (path : String) :
    Except NtStatus Node := do
  let id ← (components path).foldlM (resolveStep ordinal fs.names) 1
  (nodeMetadata fs.core id).mapError mapError

/-- The nodes that `extract_v2_inner` names. -/
def extractionNodes (ω : IterOrder) (index : ValidatedIndex) : List Node :=
  (ω.arrange index.entries.values).map Node.ofEntry

/-! ## Components -/

theorem components_lead (path : String) : components ("\\" ++ path) = components path := by
  have hlist : ("\\" ++ path).toList = [] ++ '\\' :: path.toList := String.toList_append
  rw [components, hlist, List.splitOn_append_cons_self, List.splitOn_nil, List.filter_append,
    components]
  rfl

/-- Joined display names are split where they were joined. -/
theorem components_intercalate {parts : List String}
    (hparts : ∀ part ∈ parts, part ≠ "" ∧ '\\' ∉ part.toList) {lead : String}
    (hlead : lead = "" ∨ lead = "\\") : components (lead ++ "\\".intercalate parts) = parts := by
  have hbare : components ("\\".intercalate parts) = parts := by
    by_cases hnil : parts = []
    · subst hnil
      rfl
    · have hsplit : ("\\".intercalate parts).toList.splitOn '\\' = parts.map String.toList := by
        rw [String.toList_intercalate]
        refine List.splitOn_intercalate '\\' ?_ (by simpa using hnil)
        intro l hl
        obtain ⟨part, hpart, rfl⟩ := List.mem_map.mp hl
        exact (hparts part hpart).2
      have hkeep : (parts.map String.toList).filter (· ≠ []) = parts.map String.toList := by
        refine List.filter_eq_self.mpr fun l hl => ?_
        obtain ⟨part, hpart, rfl⟩ := List.mem_map.mp hl
        rw [decide_eq_true_eq]
        exact fun hempty => (hparts part hpart).1 (String.toList_eq_nil_iff.mp hempty)
      rw [components, hsplit, hkeep, List.map_map]
      exact List.map_id'' (fun part => String.ofList_toList) parts
  rcases hlead with rfl | rfl
  · rwa [String.empty_append]
  · rwa [components_lead]

/-! ## The path of an entry -/

variable {os : Platform} {header : Header W} {es : List Entry} {nodes : List Node}
  {map : WindowsNameMap K} {fuel : Nat}

theorem byId_lookup (hids : (nodes.map Node.id).Nodup) {id : UInt64} {node : Node} :
    (byId nodes).lookup id = some node ↔ node ∈ nodes ∧ node.id = id := by
  have hkeys : nodes.Pairwise fun a b => a.id ≠ b.id := List.pairwise_map.mp hids
  rw [byId, HashMap.lookup_foldl_insert hkeys]
  constructor
  · rintro (⟨c, hc, hid, rfl⟩ | ⟨hlook, -⟩)
    · exact ⟨hc, hid⟩
    · cases hlook
  · rintro ⟨hmem, hid⟩
    exact .inl ⟨node, hmem, hid, rfl⟩

/-- A node of an entry is below the root exactly when its id says so. -/
theorem below_root_iff (h : AcceptedIndex os header es) {e : Entry} (he : e ∈ es) :
    (Node.ofEntry e).id ≠ (Node.ofEntry e).parentId ↔ e.id ≠ 1 := by
  refine not_congr ⟨fun hid => ?_, fun hid => ?_⟩
  · by_contra hne
    obtain ⟨p, hp, hpid, -, hdepth⟩ := h.parents e he hne
    have hself : p = e := h.eq_of_id_eq hp he (hpid.trans hid.symm)
    rw [hself] at hdepth
    exact absurd hdepth (Nat.succ_ne_self _)
  · exact hid.trans (h.root_entry he hid).1.symm

/-- The walk to the root ends. -/
theorem exists_nodePath (h : AcceptedIndex os header es) (hids : (nodes.map Node.id).Nodup)
    (hnodes : nodes.Perm (es.map Node.ofEntry)) (names : HashMap UInt64 String) :
    ∀ (steps : Nat) {e : Entry}, e ∈ es → e.depth.toNat < steps →
      ∃ parts, nodePath (byId nodes) names steps e.id = some parts
  | 0, _, _, hsteps => absurd hsteps (Nat.not_lt_zero _)
  | steps + 1, e, he, hsteps => by
      have hlook := (byId_lookup hids).mpr
        ⟨hnodes.mem_iff.mpr (List.mem_map_of_mem (f := Node.ofEntry) he), rfl⟩
      rw [Node.ofEntry_id] at hlook
      rw [nodePath, hlook]
      dsimp only
      split
      · exact ⟨[], rfl⟩
      · rename_i hbelow
        obtain ⟨p, hp, hpid, -, hdepth⟩ := h.parents e he ((below_root_iff h he).mp hbelow)
        obtain ⟨parts, hparts⟩ :=
          exists_nodePath h hids hnodes names steps hp (by omega)
        rw [hpid] at hparts
        exact ⟨_, Option.map_eq_some_iff.mpr ⟨parts, hparts, rfl⟩⟩

/-- **The walk to the root and the lookup of its names are inverse.** -/
theorem nodePath_resolves (h : AcceptedIndex os header es) (hmap : MapOf ordinal fuel nodes map)
    (hnodes : nodes.Perm (es.map Node.ofEntry)) : ∀ (steps : Nat) {e : Entry}, e ∈ es →
    e.depth.toNat < steps →
    ∃ parts, nodePath (byId nodes) map.names steps e.id = some parts ∧
      (∀ part ∈ parts, part ≠ "" ∧ '\\' ∉ part.toList) ∧
      parts.foldlM (resolveStep ordinal map) 1 = .ok e.id
  | 0, _, _, hsteps => absurd hsteps (Nat.not_lt_zero _)
  | steps + 1, e, he, hsteps => by
      have hmem : Node.ofEntry e ∈ nodes := hnodes.mem_iff.mpr (List.mem_map_of_mem he)
      have hlook := (byId_lookup hmap.ids).mpr ⟨hmem, rfl⟩
      rw [Node.ofEntry_id] at hlook
      rw [nodePath, hlook]
      by_cases hid : e.id = 1
      · have hroot : (Node.ofEntry e).id = (Node.ofEntry e).parentId := by
          by_contra hne
          exact (below_root_iff h he).mp hne hid
        refine ⟨[], if_pos hroot, ?_, ?_⟩
        · intro part hpart
          cases hpart
        · rw [hid]
          rfl
      · have hbelow := (below_root_iff h he).mpr hid
        obtain ⟨p, hp, hpid, -, hdepth⟩ := h.parents e he hid
        obtain ⟨parts, hparts, hclean, hfold⟩ :=
          nodePath_resolves h hmap hnodes steps hp (by omega)
        rw [hpid] at hparts
        have hstep : resolveStep ordinal map e.parentId (map.name (Node.ofEntry e)) = .ok e.id := by
          have hfound : map.lookupName ordinal e.parentId (map.name (Node.ofEntry e)) =
              some e.id := hmap.lookupName_iff.mpr ⟨_, hmem, hbelow, rfl, rfl, rfl⟩
          simp only [resolveStep, hfound]
        refine ⟨parts ++ [map.name (Node.ofEntry e)], ?_, ?_, ?_⟩
        · dsimp only
          rw [if_neg hbelow]
          exact Option.map_eq_some_iff.mpr ⟨parts, hparts, rfl⟩
        · intro part hpart
          rcases List.mem_append.mp hpart with hpart | hpart
          · exact hclean part hpart
          · rw [List.mem_singleton.mp hpart]
            exact hmap.name_component hmem hbelow
        · rw [List.foldlM_append, hfold, Result.ok_bind, hpid, List.foldlM_cons, hstep]
          rfl

/-! ## Agreement -/

theorem extractionNodes_perm (h : AcceptedIndex os header es) (ω : IterOrder) :
    (extractionNodes ω (indexOf es)).Perm (es.map Node.ofEntry) :=
  (h.values_indexOf_perm ω).map _

theorem nodup_ids_of_perm (h : AcceptedIndex os header es)
    (hnodes : nodes.Perm (es.map Node.ofEntry)) : (nodes.map Node.id).Nodup := by
  refine (hnodes.map Node.id).nodup_iff.mpr ?_
  rw [List.map_map]
  exact h.ids

/-- A path of display names resolves to its entry. -/
theorem resolve_nodePath (h : AcceptedIndex os header es) (hmap : MapOf ordinal fuel nodes map)
    (hnodes : nodes.Perm (es.map Node.ofEntry)) {e : Entry} (he : e ∈ es) {lead : String}
    (hlead : lead = "" ∨ lead = "\\") :
    ∃ parts, nodePath (byId nodes) map.names (e.depth.toNat + 1) e.id = some parts ∧
      WinFspCipherFs.resolve ordinal ⟨indexOf es, map⟩ (lead ++ "\\".intercalate parts) =
        .ok (Node.ofEntry e) := by
  obtain ⟨parts, hparts, hclean, hfold⟩ :=
    nodePath_resolves h hmap hnodes (e.depth.toNat + 1) he (Nat.lt_succ_self _)
  refine ⟨parts, hparts, ?_⟩
  have hmeta : metadata (indexOf es) e.id = .ok e := metadata_eq_ok.mpr (h.lookup_of_mem he)
  rw [WinFspCipherFs.resolve, components_intercalate hclean hlead, hfold, Result.ok_bind,
    nodeMetadata, hmeta]
  rfl

theorem exists_mapM {α β : Type} {f : α → Option β} : ∀ {l : List α},
    (∀ a ∈ l, ∃ b, f a = some b) → ∃ bs, l.mapM f = some bs
  | [], _ => ⟨[], rfl⟩
  | a :: rest, h => by
      rw [List.forall_mem_cons] at h
      obtain ⟨b, hb⟩ := h.1
      obtain ⟨bs, hbs⟩ := exists_mapM h.2
      exact ⟨b :: bs, by rw [List.mapM_cons, hb, hbs]; rfl⟩

/-- **`new` ends on an accepted index**, if the comparison can tell its candidates
apart. -/
theorem exists_new (h : AcceptedIndex os header es) (hsep : SeparatesAttempts ordinal)
    (hnodes : nodes.Perm (es.map Node.ofEntry)) (ω : IterOrder) (hfuel : 2 * maxEntries < fuel) :
    ∃ map, WindowsNameMap.new ordinal ω fuel nodes = some map := by
  have hids := nodup_ids_of_perm h hnodes
  have hcount : nodes.length ≤ 5000000 := by
    rw [hnodes.length_eq, List.length_map]
    exact h.count_le
  have hmax : (2 : Nat) * 5000000 < fuel := hfuel
  have hnames : ∀ p, (localNames ordinal fuel (siblings nodes p)).isSome := by
    intro p
    have hlen : (siblings nodes p).length ≤ nodes.length := by
      rw [siblings, List.length_mergeSort]
      exact (List.length_filter_le _ _).trans (List.length_filter_le _ _)
    exact isSome_localNames hsep (by omega) (by omega)
  obtain ⟨s, hs⟩ := exists_nameAll ω hids hnames
  have hpath : ∀ names, ∀ node ∈ nodes, ∃ parts, nodePath (byId nodes) names fuel node.id =
      some parts := by
    intro names node hnode
    obtain ⟨e, he, rfl⟩ := List.mem_map.mp (hnodes.subset hnode)
    have hdepth : e.depth.toNat ≤ 1024 := (h.entries e he).depth_le
    exact exists_nodePath h hids hnodes names fuel he (by omega)
  obtain ⟨changes, hchanges⟩ : ∃ changes, changesOf fuel nodes s.names = some changes := by
    refine exists_mapM fun node hnode => ?_
    have hmem := (List.mem_filter.mp (List.mem_mergeSort.mp hnode)).1
    obtain ⟨original, horiginal⟩ := hpath ∅ node hmem
    obtain ⟨display, hdisplay⟩ := hpath s.names node hmem
    exact ⟨_, by rw [horiginal, hdisplay]; rfl⟩
  exact ⟨⟨s.names, s.lookup, changes⟩, by rw [new_eq, hs, Option.bind_some, hchanges]; rfl⟩

/-- **The mount and extraction agree on names.** However the nodes of an accepted
index are listed, `new` gives each the same display name. Siblings have
inequivalent ones, a name is looked up among them, and a path of display names
resolves to the entry it leads to. -/
theorem windows_names_agree {ω : IterOrder} {index : Index} {v : ValidatedIndex}
    (hindex : validateIndex ω os header index = .ok v) (ordinal : String → K) :
    -- the nodes that the mount and extraction list
    (∀ steps, index.entries.length < steps → ∃ nodes total,
      openNodes v steps = some (.ok (nodes, total)) ∧
        nodes.Perm (index.entries.map Node.ofEntry)) ∧
    (∀ ω, (extractionNodes ω v).Perm (index.entries.map Node.ofEntry)) ∧
    -- `new` comes to an end
    (SeparatesAttempts ordinal → ∀ nodes, nodes.Perm (index.entries.map Node.ofEntry) →
      ∀ ω fuel, 2 * maxEntries < fuel →
        ∃ map, WindowsNameMap.new ordinal ω fuel nodes = some map) ∧
    ∀ nodes, nodes.Perm (index.entries.map Node.ofEntry) → ∀ ω fuel map,
      WindowsNameMap.new ordinal ω fuel nodes = some map →
      (∀ nodes', nodes'.Perm (index.entries.map Node.ofEntry) → ∀ ω' fuel' map',
        WindowsNameMap.new ordinal ω' fuel' nodes' = some map' →
          ∀ n ∈ nodes, map'.name n = map.name n) ∧
      (∀ c ∈ nodes, ∀ d ∈ nodes, c.id ≠ 1 → d.id ≠ 1 → c.parentId = d.parentId →
        Equivalent ordinal (map.name c) (map.name d) → c = d) ∧
      (∀ parent name id, map.lookupName ordinal parent name = some id ↔
        ∃ c ∈ nodes, c.id ≠ 1 ∧ c.parentId = parent ∧ c.id = id ∧
          Equivalent ordinal (map.name c) name) ∧
      ∀ e ∈ index.entries, ∀ lead, lead = "" ∨ lead = "\\" →
        ∃ parts, nodePath (byId nodes) map.names (e.depth.toNat + 1) e.id = some parts ∧
          WinFspCipherFs.resolve ordinal ⟨v, map⟩ (lead ++ "\\".intercalate parts) =
            .ok (Node.ofEntry e) := by
  obtain ⟨h, rfl⟩ := validateIndex_eq_ok.mp hindex
  refine ⟨fun steps hsteps => ?_, extractionNodes_perm h, fun hsep nodes hnodes ω fuel hfuel =>
    exists_new h hsep hnodes ω hfuel, ?_⟩
  · obtain ⟨nodes, total, hopen, hperm, -⟩ := openNodes_complete h hsteps
    exact ⟨nodes, total, hopen, hperm⟩
  · intro nodes hnodes ω fuel map hnew
    have hmap := mapOf_new (nodup_ids_of_perm h hnodes) hnew
    have hbelow : ∀ c ∈ nodes, c.id ≠ c.parentId ↔ c.id ≠ 1 := by
      intro c hc
      obtain ⟨e, he, rfl⟩ := List.mem_map.mp (hnodes.subset hc)
      exact below_root_iff h he
    refine ⟨?_, ?_, ?_, ?_⟩
    · intro nodes' hnodes' ω' fuel' map' hnew' n hn
      have hmap' := mapOf_new (nodup_ids_of_perm h hnodes') hnew'
      exact hmap.name_eq hmap' (hnodes'.trans hnodes.symm) hn
    · intro c hc d hd hc1 hd1 hparent hequiv
      exact hmap.eq_of_equivalent hc ((hbelow c hc).mpr hc1) hd ((hbelow d hd).mpr hd1) hparent
        hequiv
    · intro parent name id
      rw [hmap.lookupName_iff]
      refine exists_congr fun c => and_congr_right fun hc => ?_
      rw [hbelow c hc]
    · exact fun e he lead hlead => resolve_nodePath h hmap hnodes he hlead

theorem windows_names_agree_sample : ∃ map,
    WindowsNameMap.new asciiKey .stored 3 (sampleIndex.entries.map Node.ofEntry) = some map ∧
      WinFspCipherFs.resolve asciiKey ⟨indexOf sampleIndex.entries, map⟩ "\\docs\\note" =
        .ok (Node.ofEntry sampleFile) := by
  have hpath : (WindowsNameMap.new asciiKey .stored 3
      (sampleIndex.entries.map Node.ofEntry)).bind (fun map =>
        nodePath (byId (sampleIndex.entries.map Node.ofEntry)) map.names 3 3) =
      some ["docs", "note"] := by decide +kernel
  obtain ⟨map, hnew, hparts⟩ := Option.bind_eq_some_iff.mp hpath
  have haccepted : validateIndex .stored .unix (sampleHeader ()) sampleIndex =
      .ok (indexOf sampleIndex.entries) := validateIndex_eq_ok.mpr ⟨sampleIndex_accepted (), rfl⟩
  obtain ⟨-, -, -, hagree⟩ := windows_names_agree haccepted asciiKey
  obtain ⟨-, -, -, hresolve⟩ := hagree _ (.refl _) .stored 3 map hnew
  obtain ⟨parts, hparts', hfound⟩ := hresolve sampleFile (by decide) "\\" (.inr rfl)
  obtain rfl := Option.some.inj (hparts.symm.trans hparts')
  exact ⟨map, hnew, hfound⟩

end CipherFS.WinFsp
