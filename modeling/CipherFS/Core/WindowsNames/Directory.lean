import CipherFS.Core.WindowsNames.Map

/-!
# The names of one directory

A directory is named on its own: the names given to other directories do not
matter, and neither does the order in which its children were collected. Its
display names have distinct keys.
-/

namespace CipherFS.WindowsNames

open ReadOnlyFs

variable {K : Type} [DecidableEq K] {ordinal : String → K} {cs : List Node} {fuel : Nat}

/-- The names of a directory by itself. -/
def localNames (ordinal : String → K) (fuel : Nat) (cs : List Node) : Option (Naming K) :=
  mapNames ordinal fuel cs (keepNames ordinal (collisionIds ordinal cs) cs ⟨[], ∅⟩)

omit [DecidableEq K] in
theorem keepNames_cons (collisions : List UInt64) (c : Node) (rest : List Node) (n : Naming K) :
    keepNames ordinal collisions (c :: rest) n = keepNames ordinal collisions rest
      (if needsMapping c.name = false ∧ c.id ∉ collisions then n.give ordinal c.id c.name
      else n) := rfl

/-! ## Other directories -/

/-- The first naming is the second one on top of other names. -/
structure Over (base : HashMap UInt64 String) (n n' : Naming K) : Prop where
  used : n.used = n'.used
  names : ∀ id, n.names.lookup id = (n'.names.lookup id).or (base.lookup id)

variable {base : HashMap UInt64 String} {n n' : Naming K}

omit [DecidableEq K] in
theorem Over.give (h : Over base n n') (id : UInt64) (display : String) :
    Over base (n.give ordinal id display) (n'.give ordinal id display) := by
  refine ⟨congrArg (ordinal display :: ·) h.used, fun i => ?_⟩
  by_cases hi : i = id
  · subst hi
    simp only [Naming.give, AList.lookup_insert, Option.some_or]
  · simp only [Naming.give, AList.lookup_insert_ne hi]
    exact h.names i

omit [DecidableEq K] in
theorem Over.keepNames (collisions : List UInt64) : ∀ {cs : List Node} {n n' : Naming K},
    Over base n n' → Over base (keepNames ordinal collisions cs n)
      (WindowsNames.keepNames ordinal collisions cs n')
  | [], _, _, h => h
  | c :: rest, n, n', h => by
      rw [keepNames_cons, keepNames_cons]
      refine Over.keepNames collisions ?_
      split
      · exact h.give c.id c.name
      · exact h

/-- Names of other nodes do not change what a directory gets. -/
theorem Over.mapNames : ∀ {cs : List Node} {n n' : Naming K}, Over base n n' →
    (∀ c ∈ cs, base.lookup c.id = none) →
    Option.Rel (Over base) (mapNames ordinal fuel cs n) (WindowsNames.mapNames ordinal fuel cs n')
  | [], _, _, h, _ => .some h
  | c :: rest, n, n', h, hbase => by
      rw [List.forall_mem_cons] at hbase
      simp only [WindowsNames.mapNames, List.foldlM_cons]
      have hnames : n.names.lookup c.id = n'.names.lookup c.id := by
        rw [h.names, hbase.1, Option.or_none]
      rw [hnames, h.used]
      split
      · exact Over.mapNames h hbase.2
      · cases chooseName ordinal n'.used c fuel 0 with
        | none => exact .none
        | some display => exact Over.mapNames (h.give c.id display) hbase.2

/-! ## Keys -/

/-- A naming uses the keys of its names, each for one node. -/
structure Keyed (ordinal : String → K) (n : Naming K) : Prop where
  used : ∀ id display, n.names.lookup id = some display → ordinal display ∈ n.used
  unique : ∀ id id' display display', n.names.lookup id = some display →
    n.names.lookup id' = some display' → ordinal display = ordinal display' → id = id'

omit [DecidableEq K] in
theorem Keyed.empty : Keyed ordinal (⟨[], ∅⟩ : Naming K) :=
  ⟨(fun _ _ h => nomatch h), (fun _ _ _ _ h => nomatch h)⟩

omit [DecidableEq K] in
theorem Keyed.give (h : Keyed ordinal n) {display : String} (hfresh : ordinal display ∉ n.used)
    (id : UInt64) : Keyed ordinal (n.give ordinal id display) := by
  constructor
  · intro i d hlook
    rcases HashMap.lookup_insert_eq_some.mp hlook with ⟨-, rfl⟩ | ⟨-, hlook⟩
    · exact List.mem_cons_self
    · exact List.mem_cons_of_mem _ (h.used i d hlook)
  · intro i i' d d' hlook hlook' hkey
    rcases HashMap.lookup_insert_eq_some.mp hlook with ⟨rfl, rfl⟩ | ⟨-, hold⟩
    · rcases HashMap.lookup_insert_eq_some.mp hlook' with ⟨rfl, -⟩ | ⟨-, hold'⟩
      · rfl
      · rw [hkey] at hfresh
        exact absurd (h.used i' d' hold') hfresh
    · rcases HashMap.lookup_insert_eq_some.mp hlook' with ⟨-, rfl⟩ | ⟨-, hold'⟩
      · rw [← hkey] at hfresh
        exact absurd (h.used i d hold) hfresh
      · exact h.unique i i' d d' hold hold' hkey

/-- Siblings whose names have one key collide. -/
theorem mem_collisionIds {b c : Node} (hb : b ∈ cs) (hc : c ∈ cs) (hne : b ≠ c)
    (hkey : ordinal b.name = ordinal c.name) : c.id ∈ collisionIds ordinal cs := by
  obtain ⟨s, hs, hmem⟩ := HashMap.exists_mem_entries_group (fun child => ordinal child.name) hc
  have hgroup := HashMap.mem_entries_group hs
  have hmem' : b ∈ s.2 := by
    rw [hgroup] at hmem ⊢
    obtain ⟨-, hk⟩ := List.mem_filter.mp hmem
    exact List.mem_filter.mpr ⟨hb, by rwa [hkey]⟩
  have hlong : 1 < s.2.length := by
    cases hlist : s.2 with
    | nil =>
        rw [hlist] at hmem
        cases hmem
    | cons x rest =>
        cases rest with
        | cons y rest => exact Nat.lt_add_of_pos_left (Nat.succ_pos _)
        | nil =>
            rw [hlist, List.mem_singleton] at hmem hmem'
            exact absurd (hmem'.trans hmem.symm) hne
  refine List.mem_map_of_mem (List.mem_flatten.mpr ⟨s.2, ?_, hmem⟩)
  exact List.mem_filter.mpr ⟨List.mem_map_of_mem hs, decide_eq_true hlong⟩

/-- A child that keeps its name. -/
def Keeps (collisions : List UInt64) (c : Node) : Prop :=
  needsMapping c.name = false ∧ c.id ∉ collisions

/-- The names that are kept have distinct keys. -/
theorem pairwise_kept (hcs : cs.Nodup) : cs.Pairwise fun a b =>
    Keeps (collisionIds ordinal cs) a → Keeps (collisionIds ordinal cs) b →
      ordinal a.name ≠ ordinal b.name := by
  refine hcs.pairwise_of_forall_ne fun a ha b hb hne _ hkeep hkey => ?_
  exact hkeep.2 (mem_collisionIds ha hb hne hkey)

omit [DecidableEq K] in
theorem Keyed.keepNames {collisions : List UInt64} : ∀ {cs : List Node} {n : Naming K},
    Keyed ordinal n → (cs.Pairwise fun a b => Keeps collisions a → Keeps collisions b →
      ordinal a.name ≠ ordinal b.name) →
    (∀ c ∈ cs, Keeps collisions c → ordinal c.name ∉ n.used) →
    Keyed ordinal (WindowsNames.keepNames ordinal collisions cs n)
  | [], _, h, _, _ => h
  | c :: rest, n, h, hpair, hfresh => by
      rw [List.pairwise_cons] at hpair
      rw [List.forall_mem_cons] at hfresh
      rw [keepNames_cons]
      split
      · rename_i hkeep
        refine (h.give (hfresh.1 hkeep) c.id).keepNames hpair.2 fun d hd hkeep' hused => ?_
        rcases List.mem_cons.mp hused with heq | hused
        · exact hpair.1 d hd hkeep hkeep' heq.symm
        · exact hfresh.2 d hd hkeep' hused
      · exact h.keepNames hpair.2 hfresh.2

theorem chooseName_fresh {used : List K} {c : Node} {display : String} :
    ∀ {fuel : Nat} {attempt : UInt64}, chooseName ordinal used c fuel attempt = some display →
      ordinal display ∉ used
  | fuel + 1, attempt, h => by
      rw [chooseName] at h
      split at h
      · exact chooseName_fresh h
      · rename_i hfresh
        rwa [← Option.some.inj h]

theorem Keyed.mapNames (h : Keyed ordinal n) (hmap : mapNames ordinal fuel cs n = some n') :
    Keyed ordinal n' := by
  refine run_inv (I := Keyed ordinal) (fun m c m' _ hm hstep => ?_) hmap h
  split at hstep
  · rwa [← Option.some.inj hstep]
  · obtain ⟨display, hchoose, rfl⟩ := Option.map_eq_some_iff.mp hstep
    exact hm.give (chooseName_fresh hchoose) c.id

/-- **The display names of one directory have distinct keys**, every child has
one, and no other node has. -/
theorem localNames_spec (hcs : cs.Nodup) (h : localNames ordinal fuel cs = some n) :
    Keyed ordinal n ∧ (∀ c ∈ cs, (n.names.lookup c.id).isSome) ∧ NamesOk cs n.names := by
  have hspec := mapNames_spec cs h
  have hkept : Keyed ordinal (keepNames ordinal (collisionIds ordinal cs) cs ⟨[], ∅⟩) :=
    Keyed.empty.keepNames (pairwise_kept hcs) fun _ _ _ hused => nomatch hused
  refine ⟨hkept.mapNames h, hspec.1, hspec.2.2 (List.Subset.refl _) ?_⟩
  exact keepNames_ok (List.Subset.refl _) fun _ _ hlook => nomatch hlook

/-! ## Fuel -/

theorem chooseName_mono {used : List K} {c : Node} {display : String} :
    ∀ {fuel fuel' : Nat} {attempt : UInt64}, fuel ≤ fuel' →
      chooseName ordinal used c fuel attempt = some display →
      chooseName ordinal used c fuel' attempt = some display
  | fuel + 1, fuel' + 1, attempt, hle, h => by
      rw [chooseName] at h ⊢
      split at h
      · rename_i hused
        rw [if_pos hused]
        exact chooseName_mono (Nat.le_of_succ_le_succ hle) h
      · rename_i hfresh
        rwa [if_neg hfresh]

theorem mapNames_mono {fuel' : Nat} (hle : fuel ≤ fuel') : ∀ {cs : List Node} {n n' : Naming K},
    mapNames ordinal fuel cs n = some n' → mapNames ordinal fuel' cs n = some n'
  | [], _, _, h => h
  | c :: rest, n, n', h => by
      simp only [mapNames, List.foldlM_cons, Option.bind_eq_bind, Option.bind_eq_some_iff] at h ⊢
      obtain ⟨m, hm, hrest⟩ := h
      refine ⟨m, ?_, mapNames_mono hle hrest⟩
      split at hm
      · rename_i hsome
        rwa [if_pos hsome]
      · rename_i hnone
        rw [if_neg hnone]
        obtain ⟨display, hchoose, rfl⟩ := Option.map_eq_some_iff.mp hm
        rw [chooseName_mono hle hchoose, Option.map_some]

/-- However far the attempts may go, the names are the same. -/
theorem localNames_unique {fuel' : Nat} (h : localNames ordinal fuel cs = some n)
    (h' : localNames ordinal fuel' cs = some n') : n = n' := by
  rcases Nat.le_total fuel fuel' with hle | hle
  · exact Option.some.inj ((mapNames_mono hle h).symm.trans h')
  · exact Option.some.inj (h.symm.trans (mapNames_mono hle h'))

/-! ## Attempts -/

/-- The comparison tells the candidates of different attempts apart. -/
def SeparatesAttempts (ordinal : String → K) : Prop := ∀ name id a b,
  ordinal (mappedName name id a) = ordinal (mappedName name id b) → a = b

theorem toNat_saturatingAdd_one {a : UInt64} (h : a.toNat + 1 < 2 ^ 64) :
    (saturatingAdd a 1).toNat = a.toNat + 1 := by
  have hone : (1 : UInt64).toNat = 1 := rfl
  obtain ⟨c, hc, hadd⟩ := exists_checkedAdd (a := a) (b := 1) h
  rw [saturatingAdd, hc, Option.getD_some, hadd, hone]

/-- Attempts that find nothing have met used keys only. -/
theorem used_of_chooseName_eq_none {used : List K} {c : Node} : ∀ {fuel : Nat} {a b : UInt64},
    chooseName ordinal used c fuel a = none → a.toNat + fuel ≤ 2 ^ 64 → a.toNat ≤ b.toNat →
    b.toNat < a.toNat + fuel → ordinal (mappedName c.name c.id b) ∈ used
  | 0, a, b, _, _, hle, hlt => absurd hlt (Nat.not_lt.mpr hle)
  | fuel + 1, a, b, h, hfuel, hle, hlt => by
      rw [chooseName] at h
      split at h
      · rename_i hused
        rcases Nat.eq_or_lt_of_le hle with heq | hlt'
        · rwa [← UInt64.toNat_inj.mp heq]
        · have hnext : (saturatingAdd a 1).toNat = a.toNat + 1 := by
            refine toNat_saturatingAdd_one ?_
            have := b.toNat_lt
            omega
          exact used_of_chooseName_eq_none h (by omega) (by omega) (by omega)
      · cases h

/-- One of more attempts than there are used keys finds a free one. -/
theorem isSome_chooseName (hsep : SeparatesAttempts ordinal) {used : List K} {c : Node}
    (hused : used.length < fuel) (hfuel : fuel ≤ 2 ^ 64) :
    (chooseName ordinal used c fuel 0).isSome := by
  rw [Option.isSome_iff_ne_none]
  intro hnone
  have hsub : ((List.range fuel).map fun k =>
      ordinal (mappedName c.name c.id (UInt64.ofNat k))) ⊆ used := by
    intro key hkey
    obtain ⟨k, hk, rfl⟩ := List.mem_map.mp hkey
    rw [List.mem_range] at hk
    have hnat : (UInt64.ofNat k).toNat = k := by
      rw [UInt64.toNat_ofNat', Nat.mod_eq_of_lt (by omega)]
    refine used_of_chooseName_eq_none hnone ?_ (Nat.zero_le _) ?_
    · rwa [UInt64.toNat_zero, Nat.zero_add]
    · rwa [UInt64.toNat_zero, Nat.zero_add, hnat]
  have hnodup : ((List.range fuel).map fun k =>
      ordinal (mappedName c.name c.id (UInt64.ofNat k))).Nodup := by
    refine List.Nodup.map_on (fun j hj k hk hkey => ?_) List.nodup_range
    rw [List.mem_range] at hj hk
    have heq := congrArg UInt64.toNat (hsep _ _ _ _ hkey)
    rwa [UInt64.toNat_ofNat', UInt64.toNat_ofNat', Nat.mod_eq_of_lt (by omega),
      Nat.mod_eq_of_lt (by omega)] at heq
  have hlen := (List.subperm_of_subset hnodup hsub).length_le
  rw [List.length_map, List.length_range] at hlen
  omega

theorem isSome_mapNames (hsep : SeparatesAttempts ordinal) (hfuel : fuel ≤ 2 ^ 64) :
    ∀ {cs : List Node} {n : Naming K}, n.used.length + cs.length < fuel →
      (mapNames ordinal fuel cs n).isSome
  | [], _, _ => rfl
  | c :: rest, n, h => by
      rw [List.length_cons] at h
      simp only [mapNames, List.foldlM_cons]
      split
      · exact isSome_mapNames hsep hfuel (by omega)
      · have hsome : (chooseName ordinal n.used c fuel 0).isSome :=
          isSome_chooseName hsep (by omega) hfuel
        obtain ⟨display, hchoose⟩ := Option.isSome_iff_exists.mp hsome
        rw [hchoose]
        refine isSome_mapNames hsep hfuel (n := n.give ordinal c.id display) ?_
        rw [Naming.give, List.length_cons]
        omega

omit [DecidableEq K] in
theorem length_used_keepNames (collisions : List UInt64) : ∀ (cs : List Node) (n : Naming K),
    (keepNames ordinal collisions cs n).used.length ≤ n.used.length + cs.length
  | [], _ => Nat.le_refl _
  | c :: rest, n => by
      rw [keepNames_cons, List.length_cons]
      refine Nat.le_trans (length_used_keepNames collisions rest _) ?_
      split
      · rw [Naming.give, List.length_cons]
        omega
      · omega

/-- **A directory gets its names** with enough attempts for each of them. -/
theorem isSome_localNames (hsep : SeparatesAttempts ordinal) (hfuel : 2 * cs.length < fuel)
    (hmax : 2 * cs.length + 1 ≤ 2 ^ 64) : (localNames ordinal fuel cs).isSome := by
  have hsome : (localNames ordinal (2 * cs.length + 1) cs).isSome := by
    refine isSome_mapNames hsep hmax ?_
    have hlen : (keepNames ordinal (collisionIds ordinal cs) cs ⟨[], ∅⟩).used.length ≤
        0 + cs.length := length_used_keepNames _ cs _
    omega
  obtain ⟨n, hn⟩ := Option.isSome_iff_exists.mp hsome
  rw [localNames, mapNames_mono hfuel hn]
  rfl

end CipherFS.WindowsNames
