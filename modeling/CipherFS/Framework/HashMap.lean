import Mathlib

/-!
# Hash maps and their iteration order

A hash map is an association list with distinct keys. What an iterator over it
yields first is unspecified in the source, so every function that iterates takes
an `IterOrder`: some rearrangement of the elements, about which only
permutation is known.
-/

namespace CipherFS

/-- `HashMap<K, V>`. -/
abbrev HashMap (K V : Type) : Type := AList (fun _ : K => V)

/-- The order in which a hash container yields its elements. -/
structure IterOrder where
  arrange : {α : Type} → List α → List α
  perm : ∀ {α : Type} (l : List α), (arrange l).Perm l

/-- The order of insertion, newest first. -/
def IterOrder.stored : IterOrder := ⟨fun l => l, fun l => List.Perm.refl l⟩

@[simp] theorem IterOrder.mem_arrange (ω : IterOrder) {α : Type} {l : List α} {a : α} :
    a ∈ ω.arrange l ↔ a ∈ l := (ω.perm l).mem_iff

namespace HashMap

variable {K V : Type} [DecidableEq K]

/-- The values, in stored order. -/
def values (m : HashMap K V) : List V := m.entries.map Sigma.snd

/-- `m.entry(k).or_default().push(v)`. -/
def push (m : HashMap K (List V)) (k : K) (v : V) : HashMap K (List V) :=
  m.insert k ((m.lookup k).getD [] ++ [v])

omit [DecidableEq K] in
@[simp] theorem values_empty : values (∅ : HashMap K V) = [] := rfl

theorem values_insert_of_lookup {m : HashMap K V} {k : K} (h : m.lookup k = none)
    (v : V) : values (m.insert k v) = v :: values m := by
  rw [values, AList.entries_insert_of_notMem (AList.lookup_eq_none.mp h)]
  rfl

theorem mem_values_of_lookup {m : HashMap K V} {k : K} {v : V}
    (h : m.lookup k = some v) : v ∈ m.values :=
  List.mem_map.mpr ⟨⟨k, v⟩, AList.mem_lookup_iff.mp h, rfl⟩

theorem exists_lookup_of_mem_values {m : HashMap K V} {v : V}
    (h : v ∈ m.values) : ∃ k, m.lookup k = some v := by
  obtain ⟨⟨k, w⟩, hmem, rfl⟩ := List.mem_map.mp h
  exact ⟨k, AList.mem_lookup_iff.mpr hmem⟩

theorem lookup_push (m : HashMap K (List V)) (k : K) (v : V) (k' : K) :
    ((m.push k v).lookup k').getD [] =
      (m.lookup k').getD [] ++ if k' = k then [v] else [] := by
  by_cases h : k' = k
  · subst h
    simp [push]
  · simp [push, AList.lookup_insert_ne h, h]

theorem lookup_insert_eq_some {m : HashMap K V} {k k' : K} {v v' : V} :
    AList.lookup k' (m.insert k v) = some v' ↔
      k' = k ∧ v' = v ∨ k' ≠ k ∧ m.lookup k' = some v' := by
  by_cases h : k' = k
  · subst h
    rw [AList.lookup_insert]
    simp [eq_comm]
  · rw [AList.lookup_insert_ne h]
    simp [h]

/-- A map after inserting under different keys. -/
theorem lookup_foldl_insert {β : Type} {key : β → K} {val : β → V} : ∀ {l : List β}
    {m : HashMap K V}, (l.Pairwise fun a b => key a ≠ key b) → ∀ {k : K} {v : V},
    (l.foldl (fun m b => m.insert (key b) (val b)) m).lookup k = some v ↔
      (∃ b ∈ l, key b = k ∧ val b = v) ∨ m.lookup k = some v ∧ ∀ b ∈ l, key b ≠ k
  | [], m, _, k, v => by simp
  | a :: rest, m, hkeys, k, v => by
      rw [List.pairwise_cons] at hkeys
      rw [List.foldl_cons, lookup_foldl_insert hkeys.2, lookup_insert_eq_some,
        List.exists_mem_cons_iff, List.forall_mem_cons]
      constructor
      · rintro (hrest | ⟨⟨rfl, rfl⟩ | ⟨hne, hlook⟩, hall⟩)
        · exact .inl (.inr hrest)
        · exact .inl (.inl ⟨rfl, rfl⟩)
        · exact .inr ⟨hlook, Ne.symm hne, hall⟩
      · rintro ((⟨rfl, rfl⟩ | hrest) | ⟨hlook, hne, hall⟩)
        · exact .inr ⟨.inl ⟨rfl, rfl⟩, fun b hb => Ne.symm (hkeys.1 b hb)⟩
        · exact .inl hrest
        · exact .inr ⟨.inr ⟨Ne.symm hne, hlook⟩, hall⟩

/-- A map is what one of its keys holds and what is left without that key. -/
theorem perm_erase_of_lookup {m : HashMap K V} {k : K} {v : V} (h : m.lookup k = some v) :
    m.entries.Perm (⟨k, v⟩ :: (m.erase k).entries) := by
  have hk : k ∈ m.keys := AList.lookup_isSome.mp (by rw [h]; rfl)
  have hsplit : ∃ (w : V) (before after : List (Sigma fun _ : K => V)), k ∉ before.keys ∧
      m.entries = before ++ ⟨k, w⟩ :: after ∧ List.kerase k m.entries = before ++ after :=
    List.exists_of_kerase hk
  obtain ⟨w, before, after, _, hentries, herase⟩ := hsplit
  have hw : m.lookup k = some w := AList.mem_lookup_iff.mpr (by rw [hentries]; simp)
  obtain rfl : w = v := by
    rw [h, Option.some.injEq] at hw
    exact hw.symm
  have hrest : (m.erase k).entries = before ++ after := herase
  rw [hentries, hrest]
  exact List.perm_middle

/-! ## Grouping -/

/-- The elements of a list by key, each group in the order of the list. -/
def group (key : V → K) (l : List V) : HashMap K (List V) :=
  l.foldl (fun m a => m.push (key a) a) ∅

theorem getD_lookup_group (key : V → K) (l : List V) (k : K) :
    ((group key l).lookup k).getD [] = l.filter (key · = k) := by
  induction l using List.reverseRecOn with
  | nil => rfl
  | append_singleton l a ih =>
      have hpush : group key (l ++ [a]) = (group key l).push (key a) a := by
        rw [group, List.foldl_append]
        rfl
      rw [hpush, lookup_push, ih, List.filter_append]
      by_cases h : key a = k
      · simp [h]
      · simp [h, Ne.symm h]

/-- The groups are exactly the nonempty classes. -/
theorem mem_entries_group {key : V → K} {l : List V} {s : Sigma fun _ : K => List V}
    (hs : s ∈ (group key l).entries) : s.2 = l.filter (key · = s.1) := by
  have hlook : (group key l).lookup s.1 = some s.2 := AList.mem_lookup_iff.mpr hs
  have hget := getD_lookup_group key l s.1
  rw [hlook] at hget
  exact hget

theorem exists_mem_entries_group (key : V → K) {l : List V} {a : V} (ha : a ∈ l) :
    ∃ s ∈ (group key l).entries, a ∈ s.2 := by
  have hget := getD_lookup_group key l (key a)
  have hmem : a ∈ l.filter (key · = key a) := List.mem_filter.mpr ⟨ha, by simp⟩
  rw [← hget] at hmem
  cases hlook : (group key l).lookup (key a) with
  | none =>
      rw [hlook] at hmem
      cases hmem
  | some as =>
      rw [hlook] at hmem
      exact ⟨⟨key a, as⟩, AList.mem_lookup_iff.mp hlook, hmem⟩

/-! ## Measuring the values -/

/-- The size of the value under a key, zero where there is none. -/
def sizeAt (size : V → Nat) (m : HashMap K V) (k : K) : Nat :=
  ((m.lookup k).map size).getD 0

variable {size : V → Nat} {m : HashMap K V} {k k' : K} {v : V}

theorem sizeAt_of_lookup (h : m.lookup k = some v) : m.sizeAt size k = size v := by
  rw [sizeAt, h]
  rfl

@[simp] theorem sizeAt_insert_self : HashMap.sizeAt size (m.insert k v) k = size v :=
  sizeAt_of_lookup (AList.lookup_insert m)

theorem sizeAt_insert_ne (h : k' ≠ k) :
    HashMap.sizeAt size (m.insert k v) k' = m.sizeAt size k' := by
  rw [sizeAt, AList.lookup_insert_ne h, sizeAt]

theorem sizeAt_erase_ne (h : k' ≠ k) :
    HashMap.sizeAt size (m.erase k) k' = m.sizeAt size k' := by
  rw [sizeAt, AList.lookup_erase_ne h, sizeAt]

/-- Summing over the keys is summing over the values. -/
theorem sum_sizeAt_keys (size : V → Nat) (m : HashMap K V) :
    (m.keys.map (m.sizeAt size)).sum = (m.values.map size).sum := by
  have hpoint : ∀ s ∈ m.entries, m.sizeAt size s.1 = size s.2 := fun s hs =>
    sizeAt_of_lookup (AList.mem_lookup_iff.mpr hs)
  have hkeys : m.keys = m.entries.map Sigma.fst := rfl
  rw [hkeys, values, List.map_map, List.map_map]
  exact congrArg List.sum (List.map_congr_left hpoint)

theorem values_insert (m : HashMap K V) (k : K) (v : V) :
    values (m.insert k v) = v :: values (m.erase k) := rfl

/-- Erasing a key takes away the size of its value. -/
theorem sum_values_erase (size : V → Nat) (m : HashMap K V) (k : K) :
    ((values (m.erase k)).map size).sum + m.sizeAt size k = (m.values.map size).sum := by
  rw [← sum_sizeAt_keys, ← sum_sizeAt_keys, AList.keys_erase]
  have hrest : ((m.keys.erase k).map (HashMap.sizeAt size (m.erase k))).sum =
      ((m.keys.erase k).map (m.sizeAt size)).sum := by
    rw [List.map_congr_left]
    rintro k' hk'
    exact sizeAt_erase_ne (m.keys_nodup.mem_erase_iff.mp hk').1
  rw [hrest]
  by_cases hk : k ∈ m.keys
  · rw [((List.perm_cons_erase hk).map (m.sizeAt size)).sum_eq, List.map_cons, List.sum_cons,
      Nat.add_comm]
  · have hnone : m.lookup k = none := AList.lookup_eq_none.mpr hk
    rw [List.erase_of_not_mem hk, sizeAt, hnone]
    rfl

end HashMap

end CipherFS
