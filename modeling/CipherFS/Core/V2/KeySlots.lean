import CipherFS.Core.V2.AcceptedHeader
import CipherFS.Core.V2.Crypto

/-!
# Keyslots and the duress slot

How a keyslot is made and tried, in the order of `v2.rs`. Under ideal primitives
a slot opens for the password it was made for and for no other.
-/

namespace CipherFS.V2

open Result

variable {Key W : Type}

/-- What `random_disabled` draws for a slot. -/
structure SlotRandom (W : Type) where
  salt : ByteArr 16
  nonce : ByteArr 12
  encryptedDek : W

/-- `KeySlot::random_disabled`. -/
def KeySlot.randomDisabled (r : SlotRandom W) : KeySlot W :=
  { generation := 0
    salt := r.salt
    params := .default
    nonce := r.nonce
    encryptedDek := r.encryptedDek }

/-- `DuressSlot::random_disabled`. -/
def DuressSlot.randomDisabled (r : SlotRandom W) : DuressSlot W :=
  { enabled := false
    salt := r.salt
    params := .default
    nonce := r.nonce
    encryptedMarker := r.encryptedDek }

variable (C : Crypto Key W)

/-- `derive_kek`. -/
def deriveKek (password : String) (salt : ByteArr 16) (params : Argon2Params) : Result Key := do
  validateArgon2 params
  ofOption (C.argon2id password salt params) "Argon2 failed"

/-- The plaintext of the duress slot. -/
def duressMarker (containerId : ByteArr 16) : ByteArr 32 :=
  C.blake3 (ascii "cipherfs-v2/duress-marker" ++ containerId.val)

/-- `configure_duress`. -/
def configureDuress (header : Header W) (password : Option String) (params : Argon2Params)
    (r : SlotRandom W) : Result (Header W) :=
  let header := { header with duress := { DuressSlot.randomDisabled r with params := params } }
  match password with
  | none => .ok header
  | some password => do
    let header := { header with duress := { header.duress with enabled := true } }
    let kek ← deriveKek C password header.duress.salt header.duress.params
    let encrypted ← ofOption (C.wrap kek header.duress.nonce (duressAad header)
      (duressMarker C header.containerId).val) "Encryption failed"
    .ok { header with duress := { header.duress with encryptedMarker := encrypted } }

/-- `make_key_slot`. -/
def makeKeySlot (header : Header W) (password : String) (dek : ByteArr 32) (generation : UInt64)
    (params : Argon2Params) (r : SlotRandom W) : Result (KeySlot W) := do
  let slot := { KeySlot.randomDisabled r with generation := generation, params := params }
  let kek ← deriveKek C password slot.salt slot.params
  let encrypted ← ofOption (C.wrap kek slot.nonce (slotAad C header slot) dek.val)
    "Encryption failed"
  .ok { slot with encryptedDek := encrypted }

inductive UnlockResult where
  | unlocked (dek : ByteArr 32)
  | duress
  | failed
deriving DecidableEq

/-- The slot loop of `unlock`. -/
def unlockSlots (header : Header W) (password : String) :
    List (KeySlot W) → Result (Option (ByteArr 32))
  | [] => .ok none
  | slot :: rest => do
    let kek ← deriveKek C password slot.salt slot.params
    match (C.unwrap kek slot.nonce (slotAad C header slot) slot.encryptedDek).bind
        (ByteArr.ofList? 32) with
    | some dek => .ok (some dek)
    | none => unlockSlots header password rest

/-- The enabled slots, the newest first. -/
def candidates (header : Header W) : List (KeySlot W) :=
  (header.slots.filter (·.generation > 0)).mergeSort fun a b => b.generation ≤ a.generation

/-- `unlock`. -/
def unlock (header : Header W) (password : String) : Result UnlockResult := do
  validateHeaderBasic header none
  match ← unlockSlots C header password (candidates header) with
  | some dek => .ok (.unlocked dek)
  | none =>
    if header.duress.enabled then do
      let kek ← deriveKek C password header.duress.salt header.duress.params
      if C.unwrap kek header.duress.nonce (duressAad header) header.duress.encryptedMarker =
          some (duressMarker C header.containerId).val then
        .ok .duress
      else .ok .failed
    else .ok .failed

/-! ## Ideal primitives -/

/-- A wrapped key opens under the key, nonce and associated data it was made
with and no others; different passwords have different keys; whether Argon2
takes a password does not depend on the salt or on valid parameters. -/
structure Crypto.Ideal (C : Crypto Key W) : Prop where
  unwrap_eq_some : ∀ {k n a w m}, C.unwrap k n a w = some m ↔ C.wrap k n a m = some w
  wrap_inj : ∀ {k n a m k' n' a' m' w}, C.wrap k n a m = some w → C.wrap k' n' a' m' = some w →
    k = k' ∧ n = n' ∧ a = a' ∧ m = m'
  argon2_inj : ∀ {p p' s q k}, C.argon2id p s q = some k → C.argon2id p' s q = some k → p = p'
  argon2_uniform : ∀ {p s q s' q'}, validateArgon2 q = .ok () → validateArgon2 q' = .ok () →
    (C.argon2id p s q).isSome → (C.argon2id p s' q').isSome

/-- The keys of the ideal primitives: what they were derived from. -/
abbrev IdealKey : Type := String × ByteArr 16 × Argon2Params

/-- Primitives whose results are their arguments. -/
def idealCrypto : Crypto IdealKey (IdealKey × ByteArr 12 × Bytes × Bytes) where
  argon2id p s q := some (p, s, q)
  wrap k n a m := some (k, n, a, m)
  unwrap k n a w := if w.1 = k ∧ w.2.1 = n ∧ w.2.2.1 = a then some w.2.2.2 else none
  hkdf _ _ _ := none
  encrypt _ _ _ _ := none
  decrypt _ _ _ _ := none
  markerDigest _ := ByteArr.zero 32
  blake3 _ := ByteArr.zero 32

theorem idealCrypto_ideal : idealCrypto.Ideal where
  unwrap_eq_some := by
    rintro k n a ⟨k', n', a', m'⟩ m
    simp only [idealCrypto, Option.ite_none_right_eq_some, Option.some.injEq, Prod.mk.injEq]
    constructor
    · rintro ⟨⟨rfl, rfl, rfl⟩, rfl⟩
      exact ⟨rfl, rfl, rfl, rfl⟩
    · rintro ⟨rfl, rfl, rfl, rfl⟩
      exact ⟨⟨rfl, rfl, rfl⟩, rfl⟩
  wrap_inj := by
    intro k n a m k' n' a' m' w h h'
    obtain rfl := Option.some.inj h
    cases Option.some.inj h'
    exact ⟨rfl, rfl, rfl, rfl⟩
  argon2_inj := by
    intro p p' s q k h h'
    obtain rfl := Option.some.inj h
    cases Option.some.inj h'
    rfl
  argon2_uniform := fun _ _ _ => rfl

variable {C} {h h' : Header W} {slot : KeySlot W} {p p' : String} {dek dek' : ByteArr 32}

/-- The slot holds the key, wrapped for the password and this header. -/
def Opens (C : Crypto Key W) (h : Header W) (slot : KeySlot W) (p : String) (dek : ByteArr 32) :
    Prop :=
  ∃ kek, deriveKek C p slot.salt slot.params = .ok kek ∧
    C.wrap kek slot.nonce (slotAad C h slot) dek.val = some slot.encryptedDek

theorem deriveKek_eq_ok {salt : ByteArr 16} {params : Argon2Params} {kek : Key} :
    deriveKek C p salt params = .ok kek ↔
      validateArgon2 params = .ok () ∧ C.argon2id p salt params = some kek := by
  simp only [deriveKek, bind_eq_ok, ofOption_eq_ok]
  constructor
  · rintro ⟨_, hv, hk⟩
    exact ⟨hv, hk⟩
  · rintro ⟨hv, hk⟩
    exact ⟨(), hv, hk⟩

theorem slotAad_congr (haad : immutableAad C h = immutableAad C h') (s : KeySlot W) :
    slotAad C h s = slotAad C h' s := by
  simp only [slotAad, haad]

theorem Opens.congr (hopen : Opens C h slot p dek) (haad : immutableAad C h = immutableAad C h') :
    Opens C h' slot p dek := by
  obtain ⟨kek, hkek, hwrap⟩ := hopen
  rw [slotAad_congr haad] at hwrap
  exact ⟨kek, hkek, hwrap⟩

theorem makeKeySlot_eq_ok {generation : UInt64} {params : Argon2Params} {r : SlotRandom W} :
    makeKeySlot C h p dek generation params r = .ok slot ↔
      slot.generation = generation ∧ slot.salt = r.salt ∧ slot.params = params ∧
        slot.nonce = r.nonce ∧ Opens C h slot p dek := by
  simp only [makeKeySlot, bind_eq_ok, ofOption_eq_ok, Except.ok.injEq]
  constructor
  · rintro ⟨kek, hkek, w, hw, rfl⟩
    exact ⟨rfl, rfl, rfl, rfl, kek, hkek, hw⟩
  · rintro ⟨rfl, hsalt, rfl, hnonce, kek, hkek, hw⟩
    obtain ⟨g, s, q, n, w⟩ := slot
    obtain rfl : s = r.salt := hsalt
    obtain rfl : n = r.nonce := hnonce
    exact ⟨kek, hkek, w, hw, rfl⟩

/-- The passwords of two slots that hold the same bytes are the same. -/
theorem Opens.unique (hC : C.Ideal) (h₁ : Opens C h slot p dek) (h₂ : Opens C h slot p' dek') :
    p = p' ∧ dek = dek' := by
  obtain ⟨kek, hkek, hwrap⟩ := h₁
  obtain ⟨kek', hkek', hwrap'⟩ := h₂
  obtain ⟨rfl, -, -, hm⟩ := hC.wrap_inj hwrap hwrap'
  exact ⟨hC.argon2_inj (deriveKek_eq_ok.mp hkek).2 (deriveKek_eq_ok.mp hkek').2, Subtype.ext hm⟩

theorem unwrap_bind_eq_some (hC : C.Ideal) {kek : Key} (hkek : deriveKek C p slot.salt
    slot.params = .ok kek) :
    (C.unwrap kek slot.nonce (slotAad C h slot) slot.encryptedDek).bind (ByteArr.ofList? 32) =
      some dek ↔ Opens C h slot p dek := by
  simp only [Option.bind_eq_some_iff, ByteArr.ofList?_eq_some, exists_eq_right,
    hC.unwrap_eq_some]
  constructor
  · exact fun hwrap => ⟨kek, hkek, hwrap⟩
  · rintro ⟨kek', hkek', hwrap⟩
    rw [hkek] at hkek'
    rwa [Except.ok.inj hkek']

theorem unlockSlots_some (hC : C.Ideal) : ∀ {slots : List (KeySlot W)},
    unlockSlots C h p slots = .ok (some dek) → ∃ s ∈ slots, Opens C h s p dek
  | [], hf => nomatch hf
  | s :: rest, hf => by
      rw [unlockSlots, bind_eq_ok] at hf
      obtain ⟨kek, hkek, hf⟩ := hf
      split at hf
      · rename_i hw
        cases hf
        exact ⟨s, List.mem_cons_self, (unwrap_bind_eq_some hC hkek).mp hw⟩
      · obtain ⟨t, ht, hopen⟩ := unlockSlots_some hC hf
        exact ⟨t, List.mem_cons_of_mem _ ht, hopen⟩

theorem unlockSlots_none (hC : C.Ideal) : ∀ {slots : List (KeySlot W)},
    unlockSlots C h p slots = .ok none → ∀ s ∈ slots, ¬Opens C h s p dek
  | [], _, _, hs, _ => nomatch hs
  | s :: rest, hf, t, ht, hopen => by
      rw [unlockSlots, bind_eq_ok] at hf
      obtain ⟨kek, hkek, hf⟩ := hf
      split at hf
      · cases hf
      · rename_i hw
        rcases List.mem_cons.mp ht with rfl | ht
        · rw [(unwrap_bind_eq_some hC hkek).mpr hopen] at hw
          cases hw
        · exact unlockSlots_none hC hf t ht hopen

/-- The loop comes to an end if Argon2 takes the password. -/
theorem exists_unlockSlots : ∀ {slots : List (KeySlot W)},
    (∀ s ∈ slots, ∃ kek, deriveKek C p s.salt s.params = .ok kek) →
      ∃ found, unlockSlots C h p slots = .ok found
  | [], _ => ⟨none, rfl⟩
  | s :: rest, htotal => by
      obtain ⟨kek, hkek⟩ := htotal s List.mem_cons_self
      rw [unlockSlots, hkek, ok_bind]
      split
      · exact ⟨_, rfl⟩
      · exact exists_unlockSlots fun t ht => htotal t (List.mem_cons_of_mem _ ht)

theorem mem_candidates : slot ∈ candidates h ↔ slot ∈ h.slots ∧ 0 < slot.generation := by
  rw [candidates, (List.mergeSort_perm _ _).mem_iff, List.mem_filter, decide_eq_true_eq]

/-! ## The order of trial -/

theorem mergeSort_pair {α : Type} (le : α → α → Bool) (a b : α) :
    [a, b].mergeSort le = if le a b then [a, b] else [b, a] := by
  simp [List.mergeSort, List.MergeSort.Internal.splitInTwo, List.merge]

theorem candidates_eq (h : Header W) : candidates h =
    (if h.slot1.generation ≤ h.slot0.generation then [h.slot0, h.slot1]
      else [h.slot1, h.slot0]).filter (·.generation > 0) := by
  rw [candidates, Header.slots]
  by_cases h₀ : 0 < h.slot0.generation <;> by_cases h₁ : 0 < h.slot1.generation <;>
    by_cases hle : h.slot1.generation ≤ h.slot0.generation <;> simp [h₀, h₁, hle, mergeSort_pair]

/-- The newest slot is tried first, and then the other one if it is enabled. -/
theorem candidates_newest {i : SlotIndex}
    (hlt : (h.slot i.other).generation < (h.slot i).generation) : candidates h =
      h.slot i :: if 0 < (h.slot i.other).generation then [h.slot i.other] else [] := by
  have hpos : 0 < (h.slot i).generation := UInt64.lt_of_le_of_lt UInt64.zero_le hlt
  have hfilter (s t : KeySlot W) (hs : 0 < s.generation) :
      [s, t].filter (·.generation > 0) = s :: if 0 < t.generation then [t] else [] := by
    by_cases ht : 0 < t.generation <;> simp [hs, ht]
  rw [candidates_eq]
  cases i with
  | first =>
      have hle : h.slot1.generation ≤ h.slot0.generation := UInt64.le_of_lt hlt
      rw [if_pos hle]
      exact hfilter _ _ hpos
  | second =>
      have hle : ¬h.slot1.generation ≤ h.slot0.generation := UInt64.not_le.mpr hlt
      rw [if_neg hle]
      exact hfilter _ _ hpos

end CipherFS.V2
