import CipherFS.Core.ReadOnlyFs.Nodes
import CipherFS.Core.WindowsNames.Mapping
import CipherFS.Framework.Runs

/-!
# Display names

`WindowsNameMap::new` gives every node below the root a display name. Names that
the Windows ordinal comparison identifies count as equal; which names those are
is Windows' own business, so the comparison key `ordinal` is a parameter.
-/

namespace CipherFS.WindowsNames

open ReadOnlyFs

variable {K : Type} [DecidableEq K] (ordinal : String → K)

/-- The result of `WindowsNameMap::new`. -/
structure WindowsNameMap (K : Type) where
  names : HashMap UInt64 String
  lookup : HashMap (UInt64 × K) UInt64
  changes : List (String × String)

/-- `name_for`. -/
def WindowsNameMap.nameFor (map : WindowsNameMap K) (id : UInt64) (original : String) : String :=
  (map.names.lookup id).getD original

/-- `name`. -/
def WindowsNameMap.name (map : WindowsNameMap K) (node : Node) : String :=
  map.nameFor node.id node.name

/-- `node_path`. The fuel bounds the walk to the root. -/
def nodePath (nodes : HashMap UInt64 Node) (names : HashMap UInt64 String) :
    Nat → UInt64 → Option (List String)
  | 0, _ => none
  | fuel + 1, current =>
    match nodes.lookup current with
    | none => some []
    | some node =>
      if node.id = node.parentId then some []
      else (nodePath nodes names fuel node.parentId).map
        (· ++ [(names.lookup node.id).getD node.name])

/-- The display names chosen so far and the ordinal keys they use. -/
structure Naming (K : Type) where
  used : List K
  names : HashMap UInt64 String

/-- Giving a node a display name. -/
def Naming.give (n : Naming K) (id : UInt64) (display : String) : Naming K :=
  ⟨ordinal display :: n.used, n.names.insert id display⟩

/-- The ids of siblings whose names collide. -/
def collisionIds (children : List Node) : List UInt64 :=
  ((HashMap.group (fun child : Node => ordinal child.name) children).values.filter
    (·.length > 1)).flatten.map Node.id

/-- The first loop over the children: names that can be kept. -/
def keepNames (collisions : List UInt64) (children : List Node) (n : Naming K) : Naming K :=
  children.foldl (fun n child =>
    if needsMapping child.name = false ∧ child.id ∉ collisions then
      n.give ordinal child.id child.name
    else n) n

/-- The attempt loop: the first candidate whose key is not used. -/
def chooseName (used : List K) (child : Node) : Nat → UInt64 → Option String
  | 0, _ => none
  | fuel + 1, attempt =>
    let candidate := mappedName child.name child.id attempt
    if ordinal candidate ∈ used then chooseName used child fuel (saturatingAdd attempt 1)
    else some candidate

/-- The second loop over the children: replacements. -/
def mapNames (fuel : Nat) (children : List Node) (n : Naming K) : Option (Naming K) :=
  children.foldlM (fun n child =>
    if (n.names.lookup child.id).isSome then some n
    else (chooseName ordinal n.used child fuel 0).map (n.give ordinal child.id)) n

/-- The names and the reverse lookup while the directories are processed. -/
structure MapState (K : Type) where
  names : HashMap UInt64 String
  lookup : HashMap (UInt64 × K) UInt64

/-- One directory of `WindowsNameMap::new`. -/
def nameDirectory (fuel : Nat) (s : MapState K) (parent : UInt64) (children : List Node) :
    Option (MapState K) := do
  let children := children.mergeSort fun a b => a.id ≤ b.id
  let kept := keepNames ordinal (collisionIds ordinal children) children ⟨[], s.names⟩
  let n ← mapNames ordinal fuel children kept
  let lookup ← children.foldlM (fun lookup child =>
    (n.names.lookup child.id).map fun display =>
      lookup.insert (parent, ordinal display) child.id) s.lookup
  some ⟨n.names, lookup⟩

/-- `WindowsNameMap::new`. `ω` is the iteration order of the directories. -/
def WindowsNameMap.new (ω : IterOrder) (fuel : Nat) (nodes : List Node) :
    Option (WindowsNameMap K) := do
  let byParent := HashMap.group Node.parentId (nodes.filter fun node => node.id ≠ node.parentId)
  let s ← (ω.arrange byParent.entries).foldlM
    (fun s group => nameDirectory ordinal fuel s group.1 group.2) ⟨∅, ∅⟩
  let byId := nodes.foldl (fun m node => m.insert node.id node) (∅ : HashMap UInt64 Node)
  let changed := (nodes.filter fun node =>
    (s.names.lookup node.id).any (· ≠ node.name)).mergeSort fun a b => a.id ≤ b.id
  let changes ← changed.mapM fun node => do
    let original ← nodePath byId ∅ fuel node.id
    let display ← nodePath byId s.names fuel node.id
    some ("\\".intercalate original, "\\".intercalate display)
  some ⟨s.names, s.lookup, changes⟩

/-! ## Which names are chosen -/

variable {ordinal} {nodes children : List Node}

/-- A display name that `new` can choose for a node. -/
def Chosen (node : Node) (display : String) : Prop :=
  display = node.name ∧ needsMapping node.name = false ∨
    ∃ attempt, display = mappedName node.name node.id attempt

/-- Every name was chosen for a node of the list. -/
def NamesOk (nodes : List Node) (names : HashMap UInt64 String) : Prop :=
  ∀ id display, names.lookup id = some display → ∃ node ∈ nodes, node.id = id ∧ Chosen node display

omit [DecidableEq K] in
theorem NamesOk.give {n : Naming K} (h : NamesOk nodes n.names) {node : Node}
    (hnode : node ∈ nodes) {display : String} (hchosen : Chosen node display) :
    NamesOk nodes (n.give ordinal node.id display).names := by
  intro id d hlook
  rcases HashMap.lookup_insert_eq_some.mp hlook with ⟨rfl, rfl⟩ | ⟨-, hlook⟩
  · exact ⟨node, hnode, rfl, hchosen⟩
  · exact h id d hlook

omit [DecidableEq K] in
theorem isSome_give {n : Naming K} {id id' : UInt64} {display : String}
    (h : (n.names.lookup id').isSome) : ((n.give ordinal id display).names.lookup id').isSome := by
  rw [AList.lookup_isSome] at *
  exact (AList.mem_insert _).mpr (.inr h)

theorem chooseName_eq_some {used : List K} {child : Node} {display : String} :
    ∀ {fuel : Nat} {attempt : UInt64}, chooseName ordinal used child fuel attempt = some display →
      ∃ attempt, display = mappedName child.name child.id attempt
  | fuel + 1, attempt, h => by
      rw [chooseName] at h
      split at h
      · exact chooseName_eq_some h
      · exact ⟨attempt, (Option.some.inj h).symm⟩

omit [DecidableEq K] in
theorem keepNames_ok {collisions : List UInt64} {n : Naming K} (hsub : children ⊆ nodes)
    (h : NamesOk nodes n.names) : NamesOk nodes (keepNames ordinal collisions children n).names := by
  refine List.foldlRecOn children _ (motive := fun n : Naming K => NamesOk nodes n.names) h ?_
  intro n hn child hchild
  split
  · rename_i hkeep
    exact hn.give (hsub hchild) (.inl ⟨rfl, hkeep.1⟩)
  · exact hn

omit [DecidableEq K] in
theorem isSome_keepNames {collisions : List UInt64} {n : Naming K} {id : UInt64}
    (h : (n.names.lookup id).isSome) :
    ((keepNames ordinal collisions children n).names.lookup id).isSome := by
  refine List.foldlRecOn children _ (motive := fun n : Naming K => (n.names.lookup id).isSome) h ?_
  intro n hn child hchild
  split
  · exact isSome_give hn
  · exact hn

/-- One replacement step names its child and forgets no name. -/
theorem mapStep_spec (nodes : List Node) {fuel : Nat} {n n' : Naming K} {child : Node}
    (h : (if (n.names.lookup child.id).isSome then some n
      else (chooseName ordinal n.used child fuel 0).map (n.give ordinal child.id)) = some n') :
    (n'.names.lookup child.id).isSome ∧
    (∀ id, (n.names.lookup id).isSome → (n'.names.lookup id).isSome) ∧
    (child ∈ nodes → NamesOk nodes n.names → NamesOk nodes n'.names) := by
  split at h
  · rename_i hsome
    obtain rfl := Option.some.inj h
    exact ⟨hsome, fun _ hid => hid, fun _ hok => hok⟩
  · obtain ⟨display, hchoose, rfl⟩ := Option.map_eq_some_iff.mp h
    refine ⟨?_, fun _ hid => isSome_give hid, fun hchild hok => hok.give hchild
      (.inr (chooseName_eq_some hchoose))⟩
    exact AList.lookup_isSome.mpr ((AList.mem_insert _).mpr (.inl rfl))

theorem mapNames_spec (nodes : List Node) {fuel : Nat} {n n' : Naming K}
    (h : mapNames ordinal fuel children n = some n') :
    (∀ child ∈ children, (n'.names.lookup child.id).isSome) ∧
    (∀ id, (n.names.lookup id).isSome → (n'.names.lookup id).isSome) ∧
    (children ⊆ nodes → NamesOk nodes n.names → NamesOk nodes n'.names) := by
  refine ⟨?_, fun id => ?_, fun hsub => ?_⟩
  · exact run_covers (D := fun child n => (n.names.lookup child.id).isSome)
      (fun _ _ _ hstep => (mapStep_spec [] hstep).1)
      (fun _ _ _ _ hD hstep => (mapStep_spec [] hstep).2.1 _ hD) h
  · exact run_inv (I := fun n : Naming K => (n.names.lookup id).isSome)
      (fun _ _ _ _ hI hstep => (mapStep_spec [] hstep).2.1 _ hI) h
  · exact run_inv (I := fun n : Naming K => NamesOk nodes n.names)
      (fun _ _ _ hchild hI hstep => (mapStep_spec nodes hstep).2.2 (hsub hchild) hI) h

theorem nameDirectory_spec (nodes : List Node) {fuel : Nat} {s s' : MapState K} {parent : UInt64}
    (h : nameDirectory ordinal fuel s parent children = some s') :
    (∀ child ∈ children, (s'.names.lookup child.id).isSome) ∧
    (∀ id, (s.names.lookup id).isSome → (s'.names.lookup id).isSome) ∧
    (children ⊆ nodes → NamesOk nodes s.names → NamesOk nodes s'.names) := by
  simp only [nameDirectory, Option.bind_eq_bind, Option.bind_eq_some_iff] at h
  obtain ⟨n, hn, lookup, -, hs⟩ := h
  obtain rfl := Option.some.inj hs
  have hsorted : children.mergeSort (fun a b => a.id ≤ b.id) ⊆ children :=
    fun _ hc => (List.mergeSort_perm _ _).mem_iff.mp hc
  have hspec := mapNames_spec nodes hn
  refine ⟨fun child hchild => hspec.1 child ((List.mergeSort_perm _ _).mem_iff.mpr hchild),
    fun id hid => hspec.2.1 id (isSome_keepNames hid), fun hsub hok => ?_⟩
  have hsub' := List.Subset.trans hsorted hsub
  exact hspec.2.2 hsub' (keepNames_ok hsub' hok)

/-- Every node below the root gets a name, chosen for a node with its id. -/
theorem new_spec {ω : IterOrder} {fuel : Nat} {map : WindowsNameMap K}
    (h : WindowsNameMap.new ordinal ω fuel nodes = some map) :
    NamesOk nodes map.names ∧
    ∀ node ∈ nodes, node.id ≠ node.parentId → (map.names.lookup node.id).isSome := by
  simp only [WindowsNameMap.new, Option.bind_eq_bind, Option.bind_eq_some_iff] at h
  obtain ⟨s, hs, changes, -, hmap⟩ := h
  obtain rfl := Option.some.inj hmap
  constructor
  · refine run_inv (I := fun s : MapState K => NamesOk nodes s.names) ?_ hs ?_
    · intro m g m' hg hm hstep
      refine (nameDirectory_spec nodes hstep).2.2 ?_ hm
      rw [HashMap.mem_entries_group ((IterOrder.mem_arrange ω).mp hg)]
      exact fun _ hc => (List.mem_filter.mp (List.mem_filter.mp hc).1).1
    · intro id display hlook
      cases hlook
  · intro node hnode hroot
    have hbelow : node ∈ nodes.filter fun node => node.id ≠ node.parentId :=
      List.mem_filter.mpr ⟨hnode, decide_eq_true hroot⟩
    obtain ⟨g, hg, hmem⟩ := HashMap.exists_mem_entries_group Node.parentId hbelow
    exact run_covers (D := fun (g : Sigma fun _ : UInt64 => List Node) (s : MapState K) =>
        ∀ child ∈ g.2, (s.names.lookup child.id).isSome)
      (fun _ _ _ hstep => (nameDirectory_spec [] hstep).1)
      (fun _ _ _ _ hD hstep child hc => (nameDirectory_spec [] hstep).2.1 _ (hD child hc))
      hs g ((IterOrder.mem_arrange ω).mpr hg) node hmem

/-- **The display names are ones Windows can show exactly when no sibling is a
device name with an extension.** -/
theorem display_names_ok_iff {ω : IterOrder} {fuel : Nat} {map : WindowsNameMap K}
    (hids : (nodes.map Node.id).Nodup)
    (h : WindowsNameMap.new ordinal ω fuel nodes = some map) :
    (∀ node ∈ nodes, node.id ≠ node.parentId →
      needsMapping (map.name node) = false ∧ utf16Len (map.name node).toList ≤ 255) ↔
    ∀ node ∈ nodes, node.id ≠ node.parentId → reservedWithExtension node.name = false := by
  obtain ⟨hok, hall⟩ := new_spec h
  have hchosen : ∀ node ∈ nodes, node.id ≠ node.parentId → Chosen node (map.name node) := by
    intro node hnode hroot
    obtain ⟨display, hlook⟩ := Option.isSome_iff_exists.mp (hall node hnode hroot)
    obtain ⟨node', hnode', hid, hchosen⟩ := hok _ _ hlook
    obtain rfl := List.inj_on_of_nodup_map hids hnode' hnode hid
    rwa [WindowsNameMap.name, WindowsNameMap.nameFor, hlook]
  refine forall₂_congr fun node hnode => forall_congr' fun hroot => ?_
  rcases hchosen node hnode hroot with ⟨hname, hkept⟩ | ⟨attempt, hname⟩
  · rw [hname]
    refine iff_of_true ⟨hkept, utf16Len_le_of_not_needsMapping hkept⟩ ?_
    rw [← Bool.not_eq_true]
    intro hres
    rw [needsMapping_of_reservedWithExtension hres] at hkept
    cases hkept
  · rw [hname, ← Bool.not_eq_true, ← Bool.not_eq_true, needsMapping_mappedName_iff]
    exact and_iff_left (utf16Len_mappedName_le _ _ _)

/-! ## One file -/

theorem lookup_singleton {V : Type} (id : UInt64) (v : V) :
    (AList.singleton id v : HashMap UInt64 V).lookup id = some v :=
  AList.lookup_insert (∅ : HashMap UInt64 V)

theorem nameDirectory_single {node : Node} {fuel : Nat} (h : needsMapping node.name = true) :
    nameDirectory ordinal (fuel + 1) ⟨∅, ∅⟩ node.parentId [node] =
      some ⟨AList.singleton node.id (mappedName node.name node.id 0),
        AList.singleton (node.parentId, ordinal (mappedName node.name node.id 0)) node.id⟩ := by
  have hkept (c : List UInt64) : keepNames ordinal c [node] ⟨[], ∅⟩ = ⟨[], ∅⟩ := by
    simp [keepNames, h]
  simp only [nameDirectory, List.mergeSort_singleton, hkept]
  simp [mapNames, chooseName, Naming.give, lookup_singleton]

/-- A directory of one file whose name has to be replaced. -/
theorem new_single (ordinal : String → K) {node : Node} (fuel : Nat) (hroot : node.id ≠ node.parentId)
    (h : needsMapping node.name = true) :
    ∃ map, WindowsNameMap.new ordinal .stored (fuel + 2) [node] = some map ∧
      map.name node = mappedName node.name node.id 0 := by
  have hgroup : IterOrder.stored.arrange
      (HashMap.group Node.parentId ([node].filter fun node => node.id ≠ node.parentId)).entries =
      [⟨node.parentId, [node]⟩] := by
    simp [IterOrder.stored, HashMap.group, hroot, HashMap.push]
  have hpath (names) : nodePath (AList.singleton node.id node) names (fuel + 2) node.id =
      some [(names.lookup node.id).getD node.name] := by
    have hparent : AList.lookup node.parentId
        (AList.singleton node.id node : HashMap UInt64 Node) = none := by
      rw [AList.lookup_eq_none]
      exact fun hmem => hroot (List.mem_singleton.mp hmem).symm
    simp [nodePath, lookup_singleton, hroot, hparent]
  simp only [WindowsNameMap.new, hgroup, List.foldlM_cons, List.foldlM_nil, nameDirectory_single h,
    Option.bind_eq_bind, Option.bind_some, Option.pure_def]
  by_cases hne : mappedName node.name node.id 0 = node.name
  · simp [WindowsNameMap.name, WindowsNameMap.nameFor, lookup_singleton, hne]
  · simp [WindowsNameMap.name, WindowsNameMap.nameFor, lookup_singleton, hne, hpath]


/-- ASCII upper case, for names in ASCII. -/
def asciiKey (name : String) : List Char := name.toList.map Char.toUpper

/-- A file named after a device, with an extension. -/
def conFile : Node := ⟨2, 1, "CON.txt", .file, 0⟩

/-- A file whose name has a character that Windows refuses. -/
def badFile : Node := ⟨2, 1, "bad?.txt", .file, 0⟩

/-- The name chosen for `CON.txt` is again one that Windows cannot show. -/
theorem con_file_stays_reserved : ∃ map,
    WindowsNameMap.new asciiKey .stored 2 [conFile] = some map ∧
      needsMapping (map.name conFile) = true := by
  obtain ⟨map, hnew, hname⟩ := new_single asciiKey 0
    (show conFile.id ≠ conFile.parentId by decide) (by decide)
  refine ⟨map, hnew, ?_⟩
  rw [hname]
  decide

theorem display_names_ok_bad_file : ∃ map,
    WindowsNameMap.new asciiKey .stored 2 [badFile] = some map ∧
    ∀ node ∈ [badFile], node.id ≠ node.parentId →
      needsMapping (map.name node) = false ∧ utf16Len (map.name node).toList ≤ 255 := by
  obtain ⟨map, hnew, -⟩ := new_single asciiKey 0
    (show badFile.id ≠ badFile.parentId by decide) (by decide)
  refine ⟨map, hnew, (display_names_ok_iff (by decide) hnew).mpr ?_⟩
  decide

end CipherFS.WindowsNames
