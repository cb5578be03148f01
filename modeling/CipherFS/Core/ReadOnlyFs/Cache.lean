import CipherFS.Core.ReadOnlyFs.Nodes
import CipherFS.Core.V2.ChunkLayout
import CipherFS.Framework.Runs

/-!
# The chunk cache

`load_chunk` takes the lock twice: to probe, and after a miss to insert what it
decrypted in between. `Loads` is the cache together with the calls that are
between their two locked sections; its steps are the locked sections, in any
order. The accounting of the cache survives every step except one: an insert
whose key a concurrent call has put there meanwhile.
-/

namespace CipherFS.ReadOnlyFs

open V2

structure CacheKey where
  fileId : ByteArr 16
  chunkIndex : UInt64
deriving DecidableEq

structure Cache where
  maxBytes : Nat
  bytes : Nat
  values : HashMap CacheKey Bytes
  order : List CacheKey

/-- The cache of `ReadOnlyV2Fs::new`. -/
def Cache.empty (maxBytes : Nat) : Cache := ⟨maxBytes, 0, ∅, []⟩

namespace Cache

/-- The first locked section of `load_chunk`. -/
def probe (cache : Cache) (key : CacheKey) : Option Bytes × Cache :=
  match cache.values.lookup key with
  | some value => (some value, { cache with order := cache.order.erase key ++ [key] })
  | none => (none, cache)

/-- The eviction loop of the second locked section, along the queue. -/
def makeRoom (maxBytes len : Nat) : List CacheKey → HashMap CacheKey Bytes → Nat → Cache
  | [], values, bytes => ⟨maxBytes, bytes, values, []⟩
  | oldest :: rest, values, bytes =>
    if bytes + len > maxBytes then
      match values.lookup oldest with
      | some old => makeRoom maxBytes len rest (values.erase oldest) (bytes - old.length)
      | none => makeRoom maxBytes len rest values bytes
    else ⟨maxBytes, bytes, values, oldest :: rest⟩

/-- The second locked section of `load_chunk`. -/
def insert (cache : Cache) (key : CacheKey) (value : Bytes) : Cache :=
  if cache.maxBytes = 0 ∨ value.length > cache.maxBytes then cache
  else
    let room := makeRoom cache.maxBytes value.length cache.order cache.values cache.bytes
    { room with
      bytes := room.bytes + value.length
      order := room.order ++ [key]
      values := room.values.insert key value }

/-- The counter is the total length of the cached chunks, and the queue lists
their keys, each once. -/
structure Accurate (c : Cache) : Prop where
  bytes : c.bytes = (c.values.values.map List.length).sum
  nodup : c.order.Nodup
  mem : ∀ k, k ∈ c.order ↔ k ∈ c.values

theorem accurate_empty (maxBytes : Nat) : (empty maxBytes).Accurate :=
  ⟨rfl, List.nodup_nil, fun k => by simp [empty]⟩

theorem accurate_iff {c : Cache} : c.Accurate ↔ c.order.Perm c.values.keys ∧
    c.bytes = (c.order.map (c.values.sizeAt List.length)).sum := by
  have hsum (hperm : c.order.Perm c.values.keys) :
      (c.order.map (c.values.sizeAt List.length)).sum =
        (c.values.values.map List.length).sum := by
    rw [(hperm.map _).sum_eq, HashMap.sum_sizeAt_keys]
  constructor
  · intro h
    have hperm : c.order.Perm c.values.keys :=
      (List.perm_ext_iff_of_nodup h.nodup c.values.keys_nodup).mpr h.mem
    exact ⟨hperm, h.bytes.trans (hsum hperm).symm⟩
  · rintro ⟨hperm, hbytes⟩
    exact ⟨hbytes.trans (hsum hperm), hperm.nodup_iff.mpr c.values.keys_nodup,
      fun _ => hperm.mem_iff⟩

/-- A probe only moves its key to the back of the queue. -/
theorem Accurate.probe {c : Cache} (h : c.Accurate) (key : CacheKey) :
    (c.probe key).2.Accurate := by
  unfold Cache.probe
  split
  · rename_i value hlook
    have hkey : key ∈ c.order := (h.mem key).mpr (AList.lookup_isSome.mp (by rw [hlook]; rfl))
    have hmove : (c.order.erase key ++ [key]).Perm c.order :=
      List.perm_append_singleton _ _ |>.trans (List.perm_cons_erase hkey).symm
    exact ⟨h.bytes, hmove.nodup_iff.mpr h.nodup, fun k => hmove.mem_iff.trans (h.mem k)⟩
  · exact h

/-- The bytes queued from a key on. -/
def queuedFrom (c : Cache) (key : CacheKey) : Nat :=
  ((c.order.dropWhile (· ≠ key)).map (c.values.sizeAt List.length)).sum

/-- Making room keeps the accounting, and evicts from the front of the queue
exactly those chunks behind which too much is queued. -/
theorem makeRoom_spec (maxBytes len : Nat) : ∀ {order : List CacheKey}
    {values : HashMap CacheKey Bytes} {bytes : Nat},
    (⟨maxBytes, bytes, values, order⟩ : Cache).Accurate →
    (makeRoom maxBytes len order values bytes).Accurate ∧
    ∀ key, key ∈ (makeRoom maxBytes len order values bytes).values ↔
      key ∈ values ∧ len + queuedFrom ⟨maxBytes, bytes, values, order⟩ key ≤ maxBytes := by
  intro order
  induction order with
  | nil =>
      intro values bytes h
      refine ⟨h, fun key => ⟨fun hk => absurd ((h.mem key).mpr hk) List.not_mem_nil,
        fun hk => hk.1⟩⟩
  | cons oldest rest ih =>
      intro values bytes h
      obtain ⟨hperm, hbytes⟩ := accurate_iff.mp h
      simp only [List.map_cons, List.sum_cons] at hbytes
      have hnd := List.nodup_cons.mp h.nodup
      rw [makeRoom]
      split
      · rename_i hfull
        obtain ⟨old, hold⟩ : ∃ old, values.lookup oldest = some old :=
          Option.isSome_iff_exists.mp
            (AList.lookup_isSome.mpr ((h.mem oldest).mp List.mem_cons_self))
        simp only [hold]
        rw [HashMap.sizeAt_of_lookup hold] at hbytes
        have hsizes : ∀ k ∈ rest, HashMap.sizeAt List.length (values.erase oldest) k =
            values.sizeAt List.length k := by
          rintro k hk
          exact HashMap.sizeAt_erase_ne fun heq => hnd.1 (heq ▸ hk)
        have hacc : (⟨maxBytes, bytes - old.length, values.erase oldest, rest⟩ :
            Cache).Accurate := by
          refine accurate_iff.mpr ⟨?_, ?_⟩
          · rw [AList.keys_erase]
            simpa using hperm.erase oldest
          · have hrest : (rest.map (HashMap.sizeAt List.length (values.erase oldest))).sum =
                (rest.map (values.sizeAt List.length)).sum := by rw [List.map_congr_left hsizes]
            simp only
            omega
        obtain ⟨hacc, hmem⟩ := ih hacc
        refine ⟨hacc, fun key => ?_⟩
        rw [hmem key]
        by_cases hkey : key = oldest
        · subst hkey
          simp only [queuedFrom, AList.mem_erase, List.dropWhile_cons, List.map_cons,
            List.sum_cons, ne_eq, not_true_eq_false, decide_false, Bool.false_eq_true, if_false,
            false_and, HashMap.sizeAt_of_lookup hold, false_iff]
          omega
        · have hne : decide (oldest ≠ key) = true := by simpa using Ne.symm hkey
          simp only [queuedFrom, AList.mem_erase, List.dropWhile_cons, if_pos hne]
          rw [List.map_congr_left fun k hk => hsizes k (List.dropWhile_sublist _ |>.subset hk)]
          simp [hkey]
      · rename_i hroom
        refine ⟨h, fun key => ⟨fun hk => ⟨hk, ?_⟩, fun hk => hk.1⟩⟩
        have hsub : ((oldest :: rest).dropWhile (· ≠ key)).Sublist (oldest :: rest) :=
          List.dropWhile_sublist _
        have hle := (hsub.map (values.sizeAt List.length)).sum_le_sum fun _ _ => Nat.zero_le _
        simp only [List.map_cons, List.sum_cons] at hle
        simp only [queuedFrom]
        omega

/-- An insert that finds its key absent once it has made room: nothing is
cached at all, the key is not there, or too much is queued behind it. -/
def FreshFor (c : Cache) (key : CacheKey) (value : Bytes) : Prop :=
  c.maxBytes = 0 ∨ c.maxBytes < value.length ∨ key ∉ c.values ∨
    c.maxBytes < value.length + c.queuedFrom key

/-- Inserting keeps the accounting exactly when the key is fresh. -/
theorem Accurate.insert_iff {c : Cache} (h : c.Accurate) (key : CacheKey) (value : Bytes) :
    (c.insert key value).Accurate ↔ c.FreshFor key value := by
  unfold Cache.insert FreshFor
  split
  · rename_i hskip
    simp only [h, true_iff]
    rcases hskip with hzero | hbig
    · exact .inl hzero
    · exact .inr (.inl hbig)
  · rename_i hcached
    rw [not_or] at hcached
    obtain ⟨hroom, hmem⟩ := makeRoom_spec c.maxBytes value.length h
    generalize makeRoom c.maxBytes value.length c.order c.values c.bytes = room at *
    have hfresh : key ∉ room.values ↔
        key ∉ c.values ∨ c.maxBytes < value.length + c.queuedFrom key := by
      rw [hmem key, not_and_or, Nat.not_le]
    simp only [hcached.1, Nat.not_lt.mpr (Nat.not_lt.mp hcached.2), false_or, ← hfresh]
    constructor
    · intro hacc hkey
      have hdup := hacc.nodup
      rw [List.nodup_append] at hdup
      exact hdup.2.2 key ((hroom.mem key).mpr hkey) key List.mem_cons_self rfl
    · intro hkey
      have hlook : room.values.lookup key = none := AList.lookup_eq_none.mpr hkey
      have horder : key ∉ room.order := fun hin => hkey ((hroom.mem key).mp hin)
      refine ⟨?_, ?_, ?_⟩
      · simp only [HashMap.values_insert_of_lookup hlook, List.map_cons, List.sum_cons,
          hroom.bytes]
        exact Nat.add_comm _ _
      · refine List.nodup_append.mpr ⟨hroom.nodup, List.nodup_singleton _, ?_⟩
        rintro k hk _ hk' rfl
        exact horder (List.mem_singleton.mp hk' ▸ hk)
      · intro k
        simp only [List.mem_append, List.mem_singleton, AList.mem_insert, hroom.mem]
        exact Or.comm

/-! ## Contents -/

/-- Every cached chunk is a good one for its key. -/
def Holds (good : CacheKey → Bytes → Prop) (c : Cache) : Prop :=
  ∀ key value, c.values.lookup key = some value → good key value

theorem Holds.probe {good : CacheKey → Bytes → Prop} {c : Cache} (h : c.Holds good)
    (key : CacheKey) : (c.probe key).2.Holds good := by
  unfold Cache.probe
  split
  · exact h
  · exact h

theorem holds_makeRoom {good : CacheKey → Bytes → Prop} {maxBytes len : Nat} :
    ∀ {order : List CacheKey} {values : HashMap CacheKey Bytes} {bytes : Nat},
      (∀ key value, values.lookup key = some value → good key value) →
      (makeRoom maxBytes len order values bytes).Holds good := by
  intro order
  induction order with
  | nil => exact fun h => h
  | cons oldest rest ih =>
      intro values bytes h
      rw [makeRoom]
      split
      · split
        · refine ih fun key value hlook => ?_
          by_cases hkey : key = oldest
          · rw [hkey, AList.lookup_erase] at hlook
            cases hlook
          · rw [AList.lookup_erase_ne hkey] at hlook
            exact h key value hlook
        · exact ih h
      · exact h

theorem Holds.insert {good : CacheKey → Bytes → Prop} {c : Cache} (h : c.Holds good)
    {key : CacheKey} {value : Bytes} (hgood : good key value) :
    (c.insert key value).Holds good := by
  unfold Cache.insert
  split
  · exact h
  · intro k v hlook
    by_cases hk : k = key
    · subst hk
      rw [AList.lookup_insert] at hlook
      obtain rfl : value = v := Option.some.inj hlook
      exact hgood
    · rw [AList.lookup_insert_ne hk] at hlook
      exact holds_makeRoom h k v hlook

end Cache

/-! ## Concurrent calls -/

/-- The key `load_chunk` uses. -/
def loadKey (entry : Entry) (chunkIndex : UInt64) : CacheKey := ⟨entry.fileId, chunkIndex⟩

/-- The cache, and the calls that missed and have not inserted yet. -/
structure Loads where
  cache : Cache
  missed : List (Entry × UInt64)

def Loads.start (maxBytes : Nat) : Loads := ⟨.empty maxBytes, []⟩

/-- The two locked sections of a `load_chunk` call. -/
inductive LoadAction where
  | probe (entry : Entry) (chunkIndex : UInt64)
  | finish (entry : Entry) (chunkIndex : UInt64)

def LoadAction.entry : LoadAction → Entry
  | .probe entry _ => entry
  | .finish entry _ => entry

/-- One locked section. `decrypt` is what the call computes without the lock; a
call whose decryption fails inserts nothing. -/
def Loads.step (decrypt : Entry → UInt64 → Result Bytes) (s : Loads) : LoadAction → Option Loads
  | .probe entry i =>
    match s.cache.probe (loadKey entry i) with
    | (some _, cache) => some ⟨cache, s.missed⟩
    | (none, cache) => some ⟨cache, (entry, i) :: s.missed⟩
  | .finish entry i =>
    if (entry, i) ∈ s.missed then
      match decrypt entry i with
      | .ok value => some ⟨s.cache.insert (loadKey entry i) value, s.missed.erase (entry, i)⟩
      | .error _ => some ⟨s.cache, s.missed.erase (entry, i)⟩
    else none

variable {decrypt : Entry → UInt64 → Result Bytes}

/-- What one locked section can do to the cache. -/
theorem Loads.step_cases {s s' : Loads} {a : LoadAction} (h : s.step decrypt a = some s') :
    (∃ e i, a = .probe e i ∧ s'.cache = (s.cache.probe (loadKey e i)).2) ∨
    (∃ e i value, a = .finish e i ∧ decrypt e i = .ok value ∧
      s'.cache = s.cache.insert (loadKey e i) value) ∨
    (∃ e i err, a = .finish e i ∧ decrypt e i = .error err ∧ s'.cache = s.cache) := by
  cases a with
  | probe e i =>
      refine .inl ⟨e, i, rfl, ?_⟩
      simp only [Loads.step] at h
      split at h
      · rename_i hprobe
        rw [hprobe, ← Option.some.inj h]
      · rename_i hprobe
        rw [hprobe, ← Option.some.inj h]
  | finish e i =>
      simp only [Loads.step] at h
      split at h
      · split at h
        · rename_i value hdec
          exact .inr (.inl ⟨e, i, value, rfl, hdec, by rw [← Option.some.inj h]⟩)
        · rename_i err hdec
          exact .inr (.inr ⟨e, i, err, rfl, hdec, by rw [← Option.some.inj h]⟩)
      · cases h

/-- The condition under which a locked section keeps the accounting. -/
def LoadAction.Fresh (decrypt : Entry → UInt64 → Result Bytes) (s : Loads) : LoadAction → Prop
  | .probe _ _ => True
  | .finish entry i => ∀ value, decrypt entry i = .ok value →
      s.cache.FreshFor (loadKey entry i) value

theorem Loads.step_accurate_iff {s s' : Loads} {a : LoadAction} (h : s.cache.Accurate)
    (hstep : s.step decrypt a = some s') : s'.cache.Accurate ↔ a.Fresh decrypt s := by
  obtain ⟨e, i, rfl, hc⟩ | ⟨e, i, value, rfl, hdec, hc⟩ | ⟨e, i, err, rfl, hdec, hc⟩ :=
    Loads.step_cases hstep
  · rw [hc]
    exact iff_of_true (h.probe _) trivial
  · rw [hc, h.insert_iff]
    constructor
    · intro hfresh value' hdec'
      rw [hdec] at hdec'
      obtain rfl : value = value' := Except.ok.inj hdec'
      exact hfresh
    · exact fun hfresh => hfresh value hdec
  · rw [hc]
    refine iff_of_true h fun value' hdec' => ?_
    rw [hdec] at hdec'
    cases hdec'

/-- **The accounting holds throughout a run exactly when every insert finds its
key absent.** -/
theorem accounting_iff_fresh (decrypt : Entry → UInt64 → Result Bytes) (maxBytes : Nat)
    {actions : List LoadAction} {final : Loads}
    (hrun : run (Loads.step decrypt) (.start maxBytes) actions = some final) :
    (∀ pre post s, actions = pre ++ post →
      run (Loads.step decrypt) (.start maxBytes) pre = some s → s.cache.Accurate) ↔
    ∀ pre a post s, actions = pre ++ a :: post →
      run (Loads.step decrypt) (.start maxBytes) pre = some s → a.Fresh decrypt s :=
  always_iff (P := fun s => s.cache.Accurate) (Cache.accurate_empty maxBytes)
    (fun _ _ _ h hstep => Loads.step_accurate_iff h hstep) hrun

/-- Two calls miss on one chunk, and both insert it. -/
theorem accounting_drifts : ¬∀ (decrypt : Entry → UInt64 → Result Bytes) (maxBytes : Nat)
    (actions : List LoadAction) (s : Loads),
    run (Loads.step decrypt) (.start maxBytes) actions = some s → s.cache.Accurate := by
  intro h
  have hrun : run (Loads.step fun _ _ => .ok [7]) (.start 10)
      [.probe sampleFile 0, .probe sampleFile 0, .finish sampleFile 0, .finish sampleFile 0] =
      some ⟨⟨10, 2, AList.singleton (loadKey sampleFile 0) [7],
        [loadKey sampleFile 0, loadKey sampleFile 0]⟩, []⟩ := rfl
  have hacc := h _ _ _ _ hrun
  exact absurd hacc.nodup (by decide)

/-- Two calls miss on one chunk and both insert it, and a third one on another
chunk. A cache for one chunk evicts before each insert. -/
def evictingLoads : List LoadAction :=
  [.probe sampleFile 0, .probe sampleFile 0, .finish sampleFile 0, .finish sampleFile 0,
    .probe sampleFile 1, .finish sampleFile 1]

theorem accounting_iff_fresh_evicting : ∃ s,
    run (Loads.step fun _ _ => .ok [7]) (.start 1) evictingLoads = some s ∧
      s.cache.order = [loadKey sampleFile 1] ∧ s.cache.Accurate := by
  have hrun : run (Loads.step fun _ _ => .ok [7]) (.start 1) evictingLoads =
      some ⟨⟨1, 1, AList.singleton (loadKey sampleFile 1) [7], [loadKey sampleFile 1]⟩, []⟩ := rfl
  refine ⟨_, hrun, rfl, (accounting_iff_fresh (fun _ _ => .ok [7]) 1 hrun).mpr ?_ _ [] _
    (List.append_nil _).symm hrun⟩
  rintro pre a post s hsplit hfront
  have ha : evictingLoads[pre.length]? = some a := by
    rw [hsplit, List.getElem?_append_right (Nat.le_refl _), Nat.sub_self]
    rfl
  have hlt : pre.length < 6 := (List.getElem?_eq_some_iff.mp ha).1
  rw [show pre = evictingLoads.take pre.length by rw [hsplit, List.take_left]] at hfront
  generalize pre.length = n at ha hlt hfront
  interval_cases n <;> obtain rfl := Option.some.inj ha <;> obtain rfl := Option.some.inj hfront
  · trivial
  · trivial
  · rintro value ⟨⟩
    exact .inr (.inr (.inl (by decide)))
  · -- the chunk is there, and makes room for itself
    rintro value ⟨⟩
    exact .inr (.inr (.inr (by decide)))
  · trivial
  · rintro value ⟨⟩
    exact .inr (.inr (.inl (by decide)))

/-- The caches that calls on some set of entries can lead to. -/
def ReachableCache (decrypt : Entry → UInt64 → Result Bytes) (es : List Entry) (maxBytes : Nat)
    (c : Cache) : Prop :=
  ∃ actions s, (∀ a ∈ actions, a.entry ∈ es) ∧
    run (Loads.step decrypt) (.start maxBytes) actions = some s ∧ s.cache = c

/-- Whatever the order of the calls, a cached chunk is the decrypted one. -/
theorem ReachableCache.holds {es : List Entry} {maxBytes : Nat} {c : Cache}
    (h : ReachableCache decrypt es maxBytes c) :
    c.Holds fun key value => ∃ e ∈ es, e.fileId = key.fileId ∧
      decrypt e key.chunkIndex = .ok value := by
  obtain ⟨actions, s, hentries, hrun, rfl⟩ := h
  refine run_inv (I := fun s : Loads => s.cache.Holds fun key value =>
    ∃ e ∈ es, e.fileId = key.fileId ∧ decrypt e key.chunkIndex = .ok value) ?_ hrun ?_
  · intro m a m' ha hm hstep
    obtain ⟨e, i, rfl, hc⟩ | ⟨e, i, value, rfl, hdec, hc⟩ | ⟨e, i, err, rfl, hdec, hc⟩ :=
      Loads.step_cases hstep
    · rw [hc]
      exact hm.probe _
    · rw [hc]
      exact hm.insert ⟨e, hentries _ ha, rfl, hdec⟩
    · rw [hc]
      exact hm
  · intro key value hlook
    cases hlook

end CipherFS.ReadOnlyFs
