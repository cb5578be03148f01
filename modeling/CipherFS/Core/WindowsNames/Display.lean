import CipherFS.Framework.StableSort
import CipherFS.Core.WindowsNames.Directory

/-!
# The names of an index

What `WindowsNameMap::new` makes of a list of nodes, without its loops: each
node is named with its siblings, sorted by id. Which name it gets does not
depend on the order of the list, on the order of the directories or on how many
attempts are allowed.
-/

namespace CipherFS.WindowsNames

open ReadOnlyFs StableSort

variable {K : Type} [DecidableEq K] {ordinal : String → K} {nodes : List Node} {fuel : Nat}

/-- The children of a directory in the order in which they are named. -/
def siblings (nodes : List Node) (parent : UInt64) : List Node :=
  ((nodes.filter fun node => node.id ≠ node.parentId).filter (·.parentId = parent)).mergeSort
    fun a b => a.id ≤ b.id

/-- The directory gives the id this display name. -/
def Shows (ordinal : String → K) (fuel : Nat) (cs : List Node) (id : UInt64) (display : String) :
    Prop := ∃ n, localNames ordinal fuel cs = some n ∧ n.names.lookup id = some display

theorem mem_siblings {parent : UInt64} {node : Node} : node ∈ siblings nodes parent ↔
    node ∈ nodes ∧ node.id ≠ node.parentId ∧ node.parentId = parent := by
  rw [siblings, List.mem_mergeSort, List.mem_filter, List.mem_filter, decide_eq_true_eq,
    decide_eq_true_eq, and_assoc]

theorem nodup_siblings (hids : (nodes.map Node.id).Nodup) (parent : UInt64) :
    ((siblings nodes parent).map Node.id).Nodup := by
  have hsub : List.Sublist ((nodes.filter fun node => node.id ≠ node.parentId).filter
      (·.parentId = parent)) nodes := List.filter_sublist.trans List.filter_sublist
  exact ((List.mergeSort_perm _ _).map Node.id).nodup_iff.mpr (hids.sublist (hsub.map Node.id))

/-- **The order of the list does not matter.** -/
theorem siblings_perm {nodes' : List Node} (hids : (nodes.map Node.id).Nodup)
    (hperm : nodes'.Perm nodes) (parent : UInt64) :
    siblings nodes' parent = siblings nodes parent := by
  refine List.Perm.eq_of_pairwise ?_ (List.pairwise_mergeSort (key_trans Node.id) (key_total Node.id) _)
    (List.pairwise_mergeSort (key_trans Node.id) (key_total Node.id) _) ?_
  · intro a b ha hb hab hba
    have hid := UInt64.le_antisymm (of_decide_eq_true hab) (of_decide_eq_true hba)
    exact List.inj_on_of_nodup_map hids (hperm.subset (mem_siblings.mp ha).1)
      (mem_siblings.mp hb).1 hid
  · exact (List.mergeSort_perm _ _).trans
      (((hperm.filter _).filter _).trans (List.mergeSort_perm _ _).symm)

namespace Shows

variable {cs : List Node} {id id' : UInt64} {display display' : String}

theorem unique {fuel' : Nat} (h : Shows ordinal fuel cs id display)
    (h' : Shows ordinal fuel' cs id display') : display = display' := by
  obtain ⟨n, hn, hlook⟩ := h
  obtain ⟨n', hn', hlook'⟩ := h'
  rw [← localNames_unique hn hn', hlook] at hlook'
  exact Option.some.inj hlook'

/-- Two siblings do not share a key. -/
theorem eq_of_key (hcs : cs.Nodup) (h : Shows ordinal fuel cs id display)
    (h' : Shows ordinal fuel cs id' display') (hkey : ordinal display = ordinal display') :
    id = id' := by
  obtain ⟨n, hn, hlook⟩ := h
  obtain ⟨n', hn', hlook'⟩ := h'
  obtain rfl := Option.some.inj (hn.symm.trans hn')
  exact (localNames_spec hcs hn).1.unique id id' display display' hlook hlook' hkey

theorem chosen (hcs : cs.Nodup) (h : Shows ordinal fuel cs id display) :
    ∃ c ∈ cs, c.id = id ∧ Chosen c display := by
  obtain ⟨n, hn, hlook⟩ := h
  exact (localNames_spec hcs hn).2.2 id display hlook

end Shows

theorem exists_shows {cs : List Node} {n : Naming K} {c : Node} (hcs : cs.Nodup)
    (hn : localNames ordinal fuel cs = some n) (hc : c ∈ cs) :
    ∃ display, Shows ordinal fuel cs c.id display := by
  obtain ⟨display, hlook⟩ := Option.isSome_iff_exists.mp ((localNames_spec hcs hn).2.1 c hc)
  exact ⟨display, n, hn, hlook⟩

/-! ## One directory -/

/-- The table of a directory, filled from the names. -/
theorem foldlM_lookup {names : HashMap UInt64 String} {parent : UInt64} : ∀ {cs : List Node}
    {m : HashMap (UInt64 × K) UInt64}, (∀ c ∈ cs, (names.lookup c.id).isSome) →
    cs.foldlM (fun lookup child => (names.lookup child.id).map fun display =>
      lookup.insert (parent, ordinal display) child.id) m =
    some (cs.foldl (fun m c => m.insert (parent, ordinal ((names.lookup c.id).getD "")) c.id) m)
  | [], _, _ => rfl
  | c :: rest, m, hall => by
      rw [List.forall_mem_cons] at hall
      obtain ⟨display, hlook⟩ := Option.isSome_iff_exists.mp hall.1
      rw [List.foldlM_cons, List.foldl_cons, hlook, Option.map_some, Option.getD_some]
      exact foldlM_lookup hall.2

/-- The names and the table after a directory, given what they were before. -/
structure Names (ordinal : String → K) (fuel : Nat) (s s' : MapState K) (parent : UInt64)
    (cs : List Node) : Prop where
  names : ∀ id display, s'.names.lookup id = some display ↔
    Shows ordinal fuel cs id display ∨ s.names.lookup id = some display
  lookup : ∀ p k id, s'.lookup.lookup (p, k) = some id ↔
    (p = parent ∧ ∃ display, Shows ordinal fuel cs id display ∧ ordinal display = k) ∨
      s.lookup.lookup (p, k) = some id

variable {s s' : MapState K} {parent : UInt64} {cs children : List Node} {n n' : Naming K}

theorem shows_iff (hn : localNames ordinal fuel cs = some n) {id : UInt64} {display : String} :
    Shows ordinal fuel cs id display ↔ n.names.lookup id = some display := by
  simp only [Shows, hn, Option.some.injEq, exists_eq_left']

/-- The names of a directory on top of the names before it, and their table. -/
theorem names_of_over (hids : (cs.map Node.id).Nodup)
    (hnames : ∀ c ∈ cs, s.names.lookup c.id = none)
    (hlookup : ∀ k, s.lookup.lookup (parent, k) = none)
    (hn' : localNames ordinal fuel cs = some n') (hn : Over s.names n n') :
    (∀ c ∈ cs, (n.names.lookup c.id).isSome) ∧
    Names ordinal fuel s ⟨n.names, cs.foldl (fun m c =>
      m.insert (parent, ordinal ((n.names.lookup c.id).getD "")) c.id) s.lookup⟩ parent cs := by
  obtain ⟨hkeyed, hall, hok⟩ := localNames_spec hids.of_map hn'
  have hchild : ∀ c ∈ cs, ∃ display, n'.names.lookup c.id = some display ∧
      n.names.lookup c.id = some display := by
    intro c hc
    obtain ⟨display, hlook⟩ := Option.isSome_iff_exists.mp (hall c hc)
    exact ⟨display, hlook, by rw [hn.names, hlook, Option.some_or]⟩
  refine ⟨fun c hc => ?_, ⟨fun id display => ?_, fun p k id => ?_⟩⟩
  · obtain ⟨display, -, hlook⟩ := hchild c hc
    exact Option.isSome_iff_exists.mpr ⟨display, hlook⟩
  · rw [shows_iff hn', hn.names, Option.or_eq_some_iff]
    refine or_congr_right ⟨fun h => h.2, fun h => ⟨?_, h⟩⟩
    rw [Option.eq_none_iff_forall_ne_some]
    intro d hlook
    obtain ⟨c, hc, rfl, -⟩ := hok id d hlook
    rw [hnames c hc] at h
    cases h
  · have hkeys : cs.Pairwise fun a b =>
        (parent, ordinal ((n.names.lookup a.id).getD "")) ≠
          (parent, ordinal ((n.names.lookup b.id).getD "")) := by
      refine hids.of_map.pairwise_of_forall_ne fun a ha b hb hne heq => hne ?_
      obtain ⟨da, hda, hda'⟩ := hchild a ha
      obtain ⟨db, hdb, hdb'⟩ := hchild b hb
      rw [hda', hdb', Prod.mk.injEq] at heq
      exact List.inj_on_of_nodup_map hids ha hb (hkeyed.unique _ _ da db hda hdb heq.2)
    rw [HashMap.lookup_foldl_insert hkeys]
    constructor
    · rintro (⟨c, hc, hkey, rfl⟩ | ⟨hlook, -⟩)
      · obtain ⟨display, hd, hd'⟩ := hchild c hc
        rw [hd', Prod.mk.injEq] at hkey
        exact .inl ⟨hkey.1.symm, display, (shows_iff hn').mpr hd, hkey.2⟩
      · exact .inr hlook
    · rintro (⟨rfl, display, hd, rfl⟩ | hlook)
      · rw [shows_iff hn'] at hd
        obtain ⟨c, hc, rfl, -⟩ := hok id display hd
        refine .inl ⟨c, hc, ?_, rfl⟩
        rw [hn.names, hd, Option.some_or, Option.getD_some]
      · refine .inr ⟨hlook, fun c _ hkey => ?_⟩
        rw [← (Prod.mk.inj hkey).1, hlookup] at hlook
        cases hlook

/-- The outcome of naming a directory, if no child has a name yet and the table
has no entry of the directory. -/
theorem nameDirectory_eq (ordinal : String → K) (fuel : Nat)
    (hids : (children.map Node.id).Nodup)
    (hnames : ∀ c ∈ children, s.names.lookup c.id = none)
    (hlookup : ∀ k, s.lookup.lookup (parent, k) = none)
    (hcs : children.mergeSort (fun a b => decide (a.id ≤ b.id)) = cs) :
    (∀ s', nameDirectory ordinal fuel s parent children = some s' →
      (localNames ordinal fuel cs).isSome ∧ Names ordinal fuel s s' parent cs) ∧
    ((localNames ordinal fuel cs).isSome →
      (nameDirectory ordinal fuel s parent children).isSome) := by
  have hperm : cs.Perm children := hcs ▸ List.mergeSort_perm _ _
  have hover : Option.Rel (Over s.names)
      (mapNames ordinal fuel cs (keepNames ordinal (collisionIds ordinal cs) cs ⟨[], s.names⟩))
      (localNames ordinal fuel cs) :=
    Over.mapNames (Over.keepNames _ ⟨rfl, fun id => rfl⟩)
      fun c hc => hnames c (hperm.subset hc)
  have hdir : nameDirectory ordinal fuel s parent children =
      (mapNames ordinal fuel cs
        (keepNames ordinal (collisionIds ordinal cs) cs ⟨[], s.names⟩)).bind fun n =>
      (cs.foldlM (fun lookup child => (n.names.lookup child.id).map fun display =>
        lookup.insert (parent, ordinal display) child.id) s.lookup).bind fun lookup =>
      some ⟨n.names, lookup⟩ := by
    rw [nameDirectory, hcs]
    rfl
  rw [hdir]
  generalize mapNames ordinal fuel cs
    (keepNames ordinal (collisionIds ordinal cs) cs ⟨[], s.names⟩) = m at hover ⊢
  cases hl : localNames ordinal fuel cs with
  | none =>
      rw [hl] at hover
      cases hover
      constructor
      · intro s' hs'
        cases hs'
      · intro hsome
        cases hsome
  | some n' =>
      rw [hl] at hover
      cases hover with
      | some hn =>
          obtain ⟨hsome, hspec⟩ := names_of_over ((hperm.map Node.id).nodup_iff.mpr hids)
            (fun c hc => hnames c (hperm.subset hc)) hlookup hl hn
          rw [Option.bind_some, foldlM_lookup hsome, Option.bind_some]
          refine ⟨fun s' hs' => ⟨rfl, ?_⟩, fun _ => rfl⟩
          rwa [← Option.some.inj hs']

/-! ## All directories -/

/-- What the loop over the directories has come to. -/
structure Processed (ordinal : String → K) (fuel : Nat) (nodes : List Node) (parents : List UInt64)
    (s : MapState K) : Prop where
  named : ∀ p ∈ parents, (localNames ordinal fuel (siblings nodes p)).isSome
  names : ∀ id display, s.names.lookup id = some display ↔
    ∃ p ∈ parents, Shows ordinal fuel (siblings nodes p) id display
  lookup : ∀ p k id, s.lookup.lookup (p, k) = some id ↔
    p ∈ parents ∧ ∃ display, Shows ordinal fuel (siblings nodes p) id display ∧ ordinal display = k

namespace Processed

variable {parents : List UInt64}

theorem start : Processed ordinal fuel nodes [] ⟨∅, ∅⟩ where
  named := nofun
  names _ _ := ⟨nofun, fun ⟨_, hp, _⟩ => nomatch hp⟩
  lookup _ _ _ := ⟨nofun, fun ⟨hp, _⟩ => nomatch hp⟩

/-- A directory that has not been processed has no names yet. -/
theorem fresh (h : Processed ordinal fuel nodes parents s) (hids : (nodes.map Node.id).Nodup)
    (hparent : parent ∉ parents) :
    (∀ c ∈ siblings nodes parent, s.names.lookup c.id = none) ∧
      ∀ k, s.lookup.lookup (parent, k) = none := by
  constructor
  · intro c hc
    rw [Option.eq_none_iff_forall_ne_some]
    intro display hlook
    obtain ⟨p, hp, hshows⟩ := (h.names c.id display).mp hlook
    obtain ⟨c', hc', hid, -⟩ := hshows.chosen (nodup_siblings hids p).of_map
    obtain ⟨hmem, -, hpar⟩ := mem_siblings.mp hc
    obtain ⟨hmem', -, hpar'⟩ := mem_siblings.mp hc'
    obtain rfl := List.inj_on_of_nodup_map hids hmem' hmem hid
    rw [← hpar', hpar] at hp
    exact hparent hp
  · intro k
    rw [Option.eq_none_iff_forall_ne_some]
    intro id hlook
    exact hparent ((h.lookup parent k id).mp hlook).1

theorem step (h : Processed ordinal fuel nodes parents s)
    (hsome : (localNames ordinal fuel (siblings nodes parent)).isSome)
    (hs : Names ordinal fuel s s' parent (siblings nodes parent)) :
    Processed ordinal fuel nodes (parents ++ [parent]) s' where
  named p hp := by
    rcases List.mem_append.mp hp with hp | hp
    · exact h.named p hp
    · rwa [List.mem_singleton.mp hp]
  names id display := by
    simp only [hs.names, h.names, List.mem_append, List.mem_singleton, or_and_right, exists_or,
      exists_eq_left]
    exact or_comm
  lookup p k id := by
    rw [hs.lookup, h.lookup, List.mem_append, List.mem_singleton, or_and_right]
    constructor
    · rintro (⟨rfl, hd⟩ | hd)
      · exact .inr ⟨rfl, hd⟩
      · exact .inl hd
    · rintro (hd | ⟨rfl, hd⟩)
      · exact .inr hd
      · exact .inl ⟨rfl, hd⟩

end Processed

theorem siblings_eq_nil {p : UInt64} (hp : p ∉ (HashMap.group Node.parentId
    (nodes.filter fun node => node.id ≠ node.parentId)).keys) : siblings nodes p = [] := by
  rw [List.eq_nil_iff_forall_not_mem]
  intro c hc
  obtain ⟨hmem, hroot, hpar⟩ := mem_siblings.mp hc
  have hbelow : c ∈ nodes.filter fun node => node.id ≠ node.parentId :=
    List.mem_filter.mpr ⟨hmem, decide_eq_true hroot⟩
  obtain ⟨g, hg, hcg⟩ := HashMap.exists_mem_entries_group Node.parentId hbelow
  rw [HashMap.mem_entries_group hg] at hcg
  rw [← hpar, of_decide_eq_true (List.mem_filter.mp hcg).2] at hp
  exact hp (List.mem_map_of_mem hg)

/-- The directories that `new` loops over. -/
def groupsOf (ω : IterOrder) (nodes : List Node) : List (Sigma fun _ : UInt64 => List Node) :=
  ω.arrange (HashMap.group Node.parentId (nodes.filter fun node => node.id ≠ node.parentId)).entries

/-- The loop of `new` over the directories. -/
def nameAll (ordinal : String → K) (ω : IterOrder) (fuel : Nat) (nodes : List Node) :
    Option (MapState K) :=
  (groupsOf ω nodes).foldlM (fun s group => nameDirectory ordinal fuel s group.1 group.2) ⟨∅, ∅⟩

theorem nodup_groupsOf (ω : IterOrder) (nodes : List Node) :
    ((groupsOf ω nodes).map Sigma.fst).Nodup :=
  ((ω.perm _).map _).nodup_iff.mpr (HashMap.group Node.parentId _).nodupKeys

theorem mergeSort_groupsOf {ω : IterOrder} {g : Sigma fun _ : UInt64 => List Node}
    (hg : g ∈ groupsOf ω nodes) :
    g.2.mergeSort (fun a b => decide (a.id ≤ b.id)) = siblings nodes g.1 := by
  rw [HashMap.mem_entries_group ((IterOrder.mem_arrange ω).mp hg), siblings]

/-- One directory of the loop. -/
theorem Processed.directory {ω : IterOrder} (hids : (nodes.map Node.id).Nodup)
    {pre post : List (Sigma fun _ : UInt64 => List Node)} {g : Sigma fun _ : UInt64 => List Node}
    (hgroups : groupsOf ω nodes = pre ++ g :: post)
    (h : Processed ordinal fuel nodes (pre.map Sigma.fst) s) :
    (∀ s', nameDirectory ordinal fuel s g.1 g.2 = some s' →
      Processed ordinal fuel nodes ((pre ++ [g]).map Sigma.fst) s') ∧
    ((localNames ordinal fuel (siblings nodes g.1)).isSome →
      (nameDirectory ordinal fuel s g.1 g.2).isSome) := by
  have hg : g ∈ groupsOf ω nodes := by
    rw [hgroups]
    exact List.mem_append_right _ List.mem_cons_self
  have hnodup := nodup_groupsOf ω nodes
  rw [hgroups, List.map_append, List.map_cons, List.nodup_append] at hnodup
  have hnew : g.1 ∉ pre.map Sigma.fst := fun hmem =>
    hnodup.2.2 _ hmem _ List.mem_cons_self rfl
  have hsort := mergeSort_groupsOf hg
  have hperm : (siblings nodes g.1).Perm g.2 := hsort ▸ List.mergeSort_perm _ _
  obtain ⟨hnames, hlookup⟩ := h.fresh hids hnew
  have hdir := nameDirectory_eq ordinal fuel
    ((hperm.map Node.id).nodup_iff.mp (nodup_siblings hids g.1))
    (fun c hc => hnames c (hperm.symm.subset hc)) hlookup hsort
  refine ⟨fun s' hs' => ?_, hdir.2⟩
  rw [List.map_append, List.map_singleton]
  exact h.step (hdir.1 s' hs').1 (hdir.1 s' hs').2

theorem localNames_nil : localNames ordinal fuel [] = some ⟨[], ∅⟩ := rfl

/-- The loop names every directory, and no other. -/
theorem nameAll_eq_some {ω : IterOrder} (hids : (nodes.map Node.id).Nodup)
    (h : nameAll ordinal ω fuel nodes = some s) :
    (∀ p, (localNames ordinal fuel (siblings nodes p)).isSome) ∧
    (∀ id display, s.names.lookup id = some display ↔
      ∃ p, Shows ordinal fuel (siblings nodes p) id display) ∧
    ∀ p k id, s.lookup.lookup (p, k) = some id ↔
      ∃ display, Shows ordinal fuel (siblings nodes p) id display ∧ ordinal display = k := by
  have hall : Processed ordinal fuel nodes ((groupsOf ω nodes).map Sigma.fst) s :=
    run_upto (I := fun pre s => Processed ordinal fuel nodes (pre.map Sigma.fst) s)
      (fun _ _ _ _ s' hsplit hI hstep => (hI.directory hids hsplit).1 s' hstep) h .start
  have hnone : ∀ p, p ∉ (groupsOf ω nodes).map Sigma.fst → siblings nodes p = [] := by
    intro p hp
    exact siblings_eq_nil fun hmem => hp (((ω.perm _).map _).mem_iff.mpr hmem)
  have hparent : ∀ p id display, Shows ordinal fuel (siblings nodes p) id display →
      p ∈ (groupsOf ω nodes).map Sigma.fst := by
    intro p id display hshows
    by_contra hp
    rw [hnone p hp] at hshows
    obtain ⟨c, hc, -⟩ := hshows.chosen List.nodup_nil
    cases hc
  refine ⟨fun p => ?_, fun id display => ?_, fun p k id => ?_⟩
  · by_cases hp : p ∈ (groupsOf ω nodes).map Sigma.fst
    · exact hall.named p hp
    · rw [hnone p hp, localNames_nil]
      rfl
  · rw [hall.names]
    exact ⟨fun ⟨p, _, hd⟩ => ⟨p, hd⟩, fun ⟨p, hd⟩ => ⟨p, hparent p id display hd, hd⟩⟩
  · rw [hall.lookup]
    exact ⟨fun h => h.2, fun ⟨d, hd, hk⟩ => ⟨hparent p id d hd, d, hd, hk⟩⟩

/-- The loop ends when the attempts of every directory do. -/
theorem exists_nameAll (ω : IterOrder) (hids : (nodes.map Node.id).Nodup)
    (h : ∀ p, (localNames ordinal fuel (siblings nodes p)).isSome) :
    ∃ s, nameAll ordinal ω fuel nodes = some s := by
  have hrun : ∃ s, nameAll ordinal ω fuel nodes = some s ∧
      Processed ordinal fuel nodes ((groupsOf ω nodes).map Sigma.fst) s := by
    refine exists_run_upto (I := fun pre s => Processed ordinal fuel nodes (pre.map Sigma.fst) s)
      (fun pre g post m hsplit hI => ?_) .start
    obtain ⟨hspec, htotal⟩ := hI.directory hids hsplit
    obtain ⟨m', hm'⟩ := Option.isSome_iff_exists.mp (htotal (h g.1))
    exact ⟨m', hm', hspec m' hm'⟩
  exact hrun.imp fun s hs => hs.1

/-- `by_id`. -/
def byId (nodes : List Node) : HashMap UInt64 Node :=
  nodes.foldl (fun m node => m.insert node.id node) ∅

/-- `changes`. -/
def changesOf (fuel : Nat) (nodes : List Node) (names : HashMap UInt64 String) :
    Option (List (String × String)) :=
  ((nodes.filter fun node => (names.lookup node.id).any (· ≠ node.name)).mergeSort
    fun a b => a.id ≤ b.id).mapM fun node => do
      let original ← nodePath (byId nodes) ∅ fuel node.id
      let display ← nodePath (byId nodes) names fuel node.id
      some ("\\".intercalate original, "\\".intercalate display)

theorem new_eq (ω : IterOrder) : WindowsNameMap.new ordinal ω fuel nodes =
    (nameAll ordinal ω fuel nodes).bind fun s =>
      (changesOf fuel nodes s.names).bind fun changes => some ⟨s.names, s.lookup, changes⟩ := rfl

/-! ## Components -/

theorem Chosen.component {node : Node} {display : String} (h : Chosen node display) :
    display ≠ "" ∧ '\\' ∉ display.toList := by
  have hback : isIllegal '\\' = true := by decide
  rcases h with ⟨rfl, hkept⟩ | ⟨attempt, rfl⟩
  · simp only [needsMapping, decide_eq_false_iff_not, not_or] at hkept
    constructor
    · intro hempty
      rw [hempty] at hkept
      exact hkept.1 rfl
    · exact fun hmem => hkept.2.2.1 (List.any_eq_true.mpr ⟨'\\', hmem, hback⟩)
  · have htilde : '~' ∈ suffixOf node.id attempt := by
      rw [suffixOf_def, List.append_assoc]
      exact List.mem_append_left _ (by decide)
    rw [mappedName, ← shortName]
    constructor
    · intro hempty
      have hlist := congrArg String.toList hempty
      rw [String.toList_ofList] at hlist
      have hnil : '~' ∈ ("" : String).toList := hlist ▸ List.mem_append_right _ htilde
      cases hnil
    · rw [String.toList_ofList]
      intro hmem
      rcases List.mem_append.mp hmem with hmem | hmem
      · have hshort := (shortName_initial _ _).subset hmem
        have hlegal := legal_cleanName node.name.toList '\\' hshort
        rw [hback] at hlegal
        cases hlegal
      · have hlegal := (suffixChar_suffixOf '\\' hmem).legal
        rw [hback] at hlegal
        cases hlegal

theorem Chosen.utf16Len_le {node : Node} {display : String} (h : Chosen node display) :
    utf16Len display.toList ≤ 255 := by
  rcases h with ⟨rfl, hkept⟩ | ⟨attempt, rfl⟩
  · exact utf16Len_le_of_not_needsMapping hkept
  · exact utf16Len_mappedName_le _ _ _

/-! ## The map -/

/-- `WindowsNameMap::lookup`. -/
def WindowsNameMap.lookupName (ordinal : String → K) (map : WindowsNameMap K) (parent : UInt64)
    (displayName : String) : Option UInt64 :=
  map.lookup.lookup (parent, ordinal displayName)

/-- `equivalent`. -/
def Equivalent (ordinal : String → K) (left right : String) : Prop := ordinal left = ordinal right

instance (left right : String) : Decidable (Equivalent ordinal left right) :=
  inferInstanceAs (Decidable (_ = _))

/-- What `new` makes of a list of nodes with different ids. -/
structure MapOf (ordinal : String → K) (fuel : Nat) (nodes : List Node) (map : WindowsNameMap K) :
    Prop where
  ids : (nodes.map Node.id).Nodup
  named : ∀ p, (localNames ordinal fuel (siblings nodes p)).isSome
  names : ∀ id display, map.names.lookup id = some display ↔
    ∃ p, Shows ordinal fuel (siblings nodes p) id display
  lookup : ∀ p k id, map.lookup.lookup (p, k) = some id ↔
    ∃ display, Shows ordinal fuel (siblings nodes p) id display ∧ ordinal display = k

theorem mapOf_new {ω : IterOrder} {map : WindowsNameMap K} (hids : (nodes.map Node.id).Nodup)
    (h : WindowsNameMap.new ordinal ω fuel nodes = some map) : MapOf ordinal fuel nodes map := by
  rw [new_eq, Option.bind_eq_some_iff] at h
  obtain ⟨s, hs, hrest⟩ := h
  obtain ⟨changes, -, hmap⟩ := Option.bind_eq_some_iff.mp hrest
  obtain rfl := Option.some.inj hmap
  obtain ⟨hnamed, hnames, hlookup⟩ := nameAll_eq_some hids hs
  exact ⟨hids, hnamed, hnames, hlookup⟩

namespace MapOf

variable {map map' : WindowsNameMap K} {node node' : Node}

/-- A node below the root is shown under its display name. -/
theorem shows_name (h : MapOf ordinal fuel nodes map) (hmem : node ∈ nodes)
    (hroot : node.id ≠ node.parentId) :
    Shows ordinal fuel (siblings nodes node.parentId) node.id (map.name node) := by
  have hnode : node ∈ siblings nodes node.parentId := mem_siblings.mpr ⟨hmem, hroot, rfl⟩
  obtain ⟨n, hn⟩ := Option.isSome_iff_exists.mp (h.named node.parentId)
  obtain ⟨display, hshows⟩ := exists_shows (nodup_siblings h.ids _).of_map hn hnode
  have hlook := (h.names node.id display).mpr ⟨_, hshows⟩
  rwa [WindowsNameMap.name, WindowsNameMap.nameFor, hlook]

/-- The root has no display name. -/
theorem name_root (h : MapOf ordinal fuel nodes map) (hmem : node ∈ nodes)
    (hroot : node.id = node.parentId) : map.name node = node.name := by
  have hnone : map.names.lookup node.id = none := by
    rw [Option.eq_none_iff_forall_ne_some]
    intro display hlook
    obtain ⟨p, hshows⟩ := (h.names _ _).mp hlook
    obtain ⟨c, hc, hid, -⟩ := hshows.chosen (nodup_siblings h.ids p).of_map
    obtain ⟨hc, hne, -⟩ := mem_siblings.mp hc
    obtain rfl := List.inj_on_of_nodup_map h.ids hc hmem hid
    exact hne hroot
  rw [WindowsNameMap.name, WindowsNameMap.nameFor, hnone, Option.getD_none]

/-- **A node has one display name**, in whatever order the nodes are listed. -/
theorem name_eq {fuel' : Nat} {nodes' : List Node} (h : MapOf ordinal fuel nodes map)
    (h' : MapOf ordinal fuel' nodes' map') (hperm : nodes'.Perm nodes) (hmem : node ∈ nodes) :
    map'.name node = map.name node := by
  have hmem' := hperm.mem_iff.mpr hmem
  by_cases hroot : node.id = node.parentId
  · rw [h.name_root hmem hroot, h'.name_root hmem' hroot]
  · have hshows := h'.shows_name hmem' hroot
    rw [siblings_perm h.ids hperm] at hshows
    exact hshows.unique (h.shows_name hmem hroot)

/-- **Siblings have inequivalent display names.** -/
theorem eq_of_equivalent (h : MapOf ordinal fuel nodes map) (hmem : node ∈ nodes)
    (hroot : node.id ≠ node.parentId) (hmem' : node' ∈ nodes) (hroot' : node'.id ≠ node'.parentId)
    (hparent : node.parentId = node'.parentId)
    (hequiv : Equivalent ordinal (map.name node) (map.name node')) : node = node' := by
  have hshows := h.shows_name hmem hroot
  rw [hparent] at hshows
  have hid := hshows.eq_of_key (nodup_siblings h.ids _).of_map (h.shows_name hmem' hroot') hequiv
  exact List.inj_on_of_nodup_map h.ids hmem hmem' hid

/-- **A name is looked up among the display names of a directory.** -/
theorem lookupName_iff (h : MapOf ordinal fuel nodes map) {parent id : UInt64} {name : String} :
    map.lookupName ordinal parent name = some id ↔
      ∃ c ∈ nodes, c.id ≠ c.parentId ∧ c.parentId = parent ∧ c.id = id ∧
        Equivalent ordinal (map.name c) name := by
  rw [WindowsNameMap.lookupName, h.lookup]
  constructor
  · rintro ⟨display, hshows, hkey⟩
    obtain ⟨c, hc, rfl, -⟩ := hshows.chosen (nodup_siblings h.ids parent).of_map
    obtain ⟨hmem, hroot, rfl⟩ := mem_siblings.mp hc
    refine ⟨c, hmem, hroot, rfl, rfl, ?_⟩
    rw [Equivalent, (h.shows_name hmem hroot).unique hshows, hkey]
  · rintro ⟨c, hmem, hroot, rfl, rfl, hequiv⟩
    exact ⟨map.name c, h.shows_name hmem hroot, hequiv⟩

/-- A display name is one component of a path. -/
theorem name_component (h : MapOf ordinal fuel nodes map) (hmem : node ∈ nodes)
    (hroot : node.id ≠ node.parentId) : map.name node ≠ "" ∧ '\\' ∉ (map.name node).toList := by
  obtain ⟨c, -, -, hchosen⟩ := (h.shows_name hmem hroot).chosen (nodup_siblings h.ids _).of_map
  exact hchosen.component

/-- A display name fits. -/
theorem utf16Len_name_le (h : MapOf ordinal fuel nodes map) (hmem : node ∈ nodes)
    (hroot : node.id ≠ node.parentId) : utf16Len (map.name node).toList ≤ 255 := by
  obtain ⟨c, -, -, hchosen⟩ := (h.shows_name hmem hroot).chosen (nodup_siblings h.ids _).of_map
  exact hchosen.utf16Len_le

end MapOf

end CipherFS.WindowsNames
