import CipherFS.Core.ReadOnlyFs.Read
import CipherFS.Core.V2.Binding

/-!
# Concurrent loads

What the calls of `load_chunk` return, and how much they keep in memory, however
their locked sections interleave. The byte counter may run ahead of the map after
two calls have inserted one chunk, but never behind it, and the queue never
misses a cached key; so the eviction loop still bounds what the map holds.
-/

namespace CipherFS.ReadOnlyFs

open V2

variable {Key W : Type} {C : Crypto Key W}

/-! ## What is in memory -/

namespace Cache

/-- The length of all cached chunks together. -/
def held (c : Cache) : Nat := (c.values.values.map List.length).sum

/-- What every locked section keeps. -/
structure Bounded (c : Cache) : Prop where
  queued : ∀ k ∈ c.values, k ∈ c.order
  counted : c.held ≤ c.bytes
  bound : c.held ≤ c.maxBytes

theorem bounded_empty (maxBytes : Nat) : (empty maxBytes).Bounded where
  queued k hk := absurd hk (AList.notMem_empty k)
  counted := Nat.le_refl 0
  bound := Nat.zero_le maxBytes

theorem Bounded.probe {c : Cache} (h : c.Bounded) (key : CacheKey) :
    (c.probe key).2.Bounded ∧ (c.probe key).2.maxBytes = c.maxBytes := by
  unfold Cache.probe
  split
  · refine ⟨⟨fun k hk => ?_, h.counted, h.bound⟩, rfl⟩
    by_cases hkey : k = key
    · simp [hkey]
    · exact List.mem_append_left _ ((List.mem_erase_of_ne hkey).mpr (h.queued k hk))
  · exact ⟨h, rfl⟩

/-- The eviction loop ends with enough room, or with nothing left to evict. -/
theorem makeRoom_bounded (maxBytes len : Nat) : ∀ {order : List CacheKey}
    {values : HashMap CacheKey Bytes} {bytes : Nat},
    (⟨maxBytes, bytes, values, order⟩ : Cache).Bounded →
    (makeRoom maxBytes len order values bytes).Bounded ∧
      (makeRoom maxBytes len order values bytes).maxBytes = maxBytes ∧
      ((makeRoom maxBytes len order values bytes).bytes + len ≤ maxBytes ∨
        (makeRoom maxBytes len order values bytes).held = 0) := by
  intro order
  induction order with
  | nil =>
      intro values bytes h
      refine ⟨h, rfl, .inr ?_⟩
      have hnone : values.entries = [] := by
        rw [List.eq_nil_iff_forall_not_mem]
        intro s hs
        exact List.not_mem_nil (h.queued s.1 (List.mem_map_of_mem hs))
      simp [makeRoom, held, HashMap.values, hnone]
  | cons oldest rest ih =>
      intro values bytes h
      rw [makeRoom]
      split
      · have hsum := HashMap.sum_values_erase List.length values oldest
        have hcounted := h.counted
        have hbound := h.bound
        simp only [held] at hcounted hbound
        split
        · rename_i old hold
          rw [HashMap.sizeAt_of_lookup hold] at hsum
          refine ih ⟨fun k hk => ?_, ?_, ?_⟩
          · obtain ⟨hne, hk⟩ := AList.mem_erase.mp hk
            exact List.mem_of_ne_of_mem hne (h.queued k hk)
          · simp only [held]
            omega
          · simp only [held]
            omega
        · rename_i hnone
          refine ih ⟨fun k hk => ?_, h.counted, h.bound⟩
          refine List.mem_of_ne_of_mem ?_ (h.queued k hk)
          rintro rfl
          exact AList.lookup_eq_none.mp hnone hk
      · rename_i hroom
        exact ⟨h, rfl, .inl (Nat.not_lt.mp hroom)⟩

theorem Bounded.insert {c : Cache} (h : c.Bounded) (key : CacheKey) (value : Bytes) :
    (c.insert key value).Bounded ∧ (c.insert key value).maxBytes = c.maxBytes := by
  unfold Cache.insert
  split
  · exact ⟨h, rfl⟩
  · rename_i hcached
    obtain ⟨hroom, hmax, hspace⟩ := makeRoom_bounded c.maxBytes value.length h
    generalize makeRoom c.maxBytes value.length c.order c.values c.bytes = room at *
    have hheld : ((HashMap.values (room.values.insert key value)).map List.length).sum ≤
        value.length + room.held := by
      have hsum := HashMap.sum_values_erase List.length room.values key
      rw [HashMap.values_insert, List.map_cons, List.sum_cons, held]
      omega
    have hcounted := hroom.counted
    refine ⟨⟨fun k hk => ?_, ?_, ?_⟩, hmax⟩
    · rcases (AList.mem_insert room.values).mp hk with rfl | hk
      · simp
      · exact List.mem_append_left _ (hroom.queued k hk)
    · simp only [held] at hheld hcounted ⊢
      omega
    · rw [not_or] at hcached
      simp only [held] at hheld hcounted hspace ⊢
      omega

end Cache

/-! ## What the calls return -/

/-- What a call returns at one of its locked sections, if it returns there. -/
def LoadAction.returned (decrypt : Entry → UInt64 → Result Bytes) (s : Loads) :
    LoadAction → Option (FsResult Bytes)
  | .probe entry i => (s.cache.probe (loadKey entry i)).1.map .ok
  | .finish entry i =>
    match (decrypt entry i).context s!"entry {entry.id} chunk {i} failed" with
    | .ok value => some (.ok value)
    | .error e => some (.error (.integrity e))

/-- The chunk that a locked section works on. -/
def LoadAction.chunkIndex : LoadAction → UInt64
  | .probe _ i => i
  | .finish _ i => i

variable {opened : OpenedContainer W} {es : List Entry} {os : Platform} {maxBytes : Nat}

/-- A cached chunk belongs to the entry that asks for it. -/
theorem decryptChunk_of_holds (hidx : AcceptedIndex os opened.header es) {s : Loads}
    (hs : ReachableCache (decryptChunk C opened) es maxBytes s.cache) {e : Entry} (he : e ∈ es)
    {i : UInt64} {value : Bytes} (hlook : s.cache.values.lookup (loadKey e i) = some value) :
    decryptChunk C opened e i = .ok value := by
  obtain ⟨e', he', hid, hdec⟩ := hs.holds (loadKey e i) value hlook
  have hk' : e'.kind = .file := (length_of_decryptChunk hdec).1
  have hk : e.kind = .file := by
    by_contra hdir
    -- the file id of a directory is zero, that of a file is not
    have hzero := (hidx.entries e he).directory (by cases hkind : e.kind <;> simp_all)
    have hfile := ((hidx.entries e' he').file hk').1
    exact hfile (hid.trans hzero.2.2.2.2)
  rwa [hidx.eq_of_fileId_eq he he' hk hk' hid.symm]

theorem Loads.step_bounded {s s' : Loads} {a : LoadAction}
    {decrypt : Entry → UInt64 → Result Bytes} (h : s.cache.Bounded)
    (hstep : s.step decrypt a = some s') :
    s'.cache.Bounded ∧ s'.cache.maxBytes = s.cache.maxBytes := by
  obtain ⟨e, i, rfl, hc⟩ | ⟨e, i, value, rfl, hdec, hc⟩ | ⟨e, i, err, rfl, hdec, hc⟩ :=
    Loads.step_cases hstep
  · rw [hc]
    exact h.probe _
  · rw [hc]
    exact h.insert _ _
  · rw [hc]
    exact ⟨h, rfl⟩

/-- **The cache is transparent and bounded.** In every interleaving of the locked
sections, a call that succeeds returns what `decrypt_chunk` gives for its own
chunk, and the cached chunks together never exceed the limit. -/
theorem cache_transparent_and_bounded {ω : IterOrder} {index : Index}
    (hvalid : validateIndex ω os opened.header index = .ok opened.index)
    {actions : List LoadAction} {s : Loads} (hentries : ∀ a ∈ actions, a.entry ∈ index.entries)
    (hrun : run (Loads.step (decryptChunk C opened)) (.start maxBytes) actions = some s) :
    (s.cache.values.values.map List.length).sum ≤ maxBytes ∧
    ∀ a s' value, a.entry ∈ index.entries → s.step (decryptChunk C opened) a = some s' →
      a.returned (decryptChunk C opened) s = some (.ok value) →
      decryptChunk C opened a.entry a.chunkIndex = .ok value := by
  have hidx := (validateIndex_eq_ok.mp hvalid).1
  constructor
  · have hinv : s.cache.Bounded ∧ s.cache.maxBytes = maxBytes := by
      refine run_inv (I := fun s : Loads => s.cache.Bounded ∧ s.cache.maxBytes = maxBytes)
        ?_ hrun ⟨Cache.bounded_empty maxBytes, rfl⟩
      rintro m a m' - ⟨hm, hmax⟩ hstep
      obtain ⟨hm', hmax'⟩ := Loads.step_bounded hm hstep
      exact ⟨hm', hmax'.trans hmax⟩
    have hbound := hinv.1.bound
    rwa [hinv.2] at hbound
  · intro a s' value ha hstep hreturn
    cases a with
    | probe e i =>
        have hlook : s.cache.values.lookup (loadKey e i) = some value := by
          simp only [LoadAction.returned, Option.map_eq_some_iff, Except.ok.injEq,
            exists_eq_right] at hreturn
          unfold Cache.probe at hreturn
          split at hreturn
          · rename_i hlook
            exact hlook.trans hreturn
          · cases hreturn
        exact decryptChunk_of_holds hidx ⟨actions, s, hentries, hrun, rfl⟩ ha hlook
    | finish e i =>
        simp only [LoadAction.returned] at hreturn
        split at hreturn
        · rename_i hdec
          rw [Result.context_eq_ok] at hdec
          cases hreturn
          exact hdec
        · cases hreturn

theorem cache_transparent_and_bounded_sample : ∃ s,
    run (Loads.step (decryptChunk sealedOnce sealedContainer)) (.start 10)
      [.probe sampleFile 0, .probe sampleFile 0, .finish sampleFile 0, .finish sampleFile 0] =
        some s ∧
    s.cache.bytes = 10 ∧ (s.cache.values.values.map List.length).sum ≤ 10 ∧
    (LoadAction.probe sampleFile 0).returned (decryptChunk sealedOnce sealedContainer) s =
      some (.ok (ascii "hello")) := by
  obtain ⟨s, hrun, hbytes, hreturn⟩ : ∃ s,
      run (Loads.step (decryptChunk sealedOnce sealedContainer)) (.start 10)
        [.probe sampleFile 0, .probe sampleFile 0, .finish sampleFile 0, .finish sampleFile 0] =
          some s ∧ s.cache.bytes = 10 ∧
      (LoadAction.probe sampleFile 0).returned (decryptChunk sealedOnce sealedContainer) s =
        some (.ok (ascii "hello")) := by
    refine ⟨⟨⟨10, 10, AList.singleton (loadKey sampleFile 0) (ascii "hello"),
      [loadKey sampleFile 0, loadKey sampleFile 0]⟩, []⟩, ?_, rfl, rfl⟩
    simp only [run, List.foldlM_cons, List.foldlM_nil, Loads.step, decryptChunk_sealedContainer]
    rfl
  have hvalid : validateIndex .stored .unix sealedContainer.header sampleIndex =
      .ok sealedContainer.index := validateIndex_eq_ok.mpr ⟨sampleIndex_accepted _, rfl⟩
  exact ⟨s, hrun, hbytes, (cache_transparent_and_bounded hvalid (by decide) hrun).1, hreturn⟩

end CipherFS.ReadOnlyFs
