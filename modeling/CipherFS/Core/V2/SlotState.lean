import CipherFS.Core.V2.KeySlots

/-!
# Headers whose keyslots are in order

The state that packing leaves and password changes keep: every enabled slot
opens for some master password and holds the one data key, one slot is newer
than the other, and the duress slot is the one that was configured.
-/

namespace CipherFS.V2

open Result

variable {Key W : Type} {C : Crypto Key W} {h : Header W} {d : Option String} {p q : String}
  {dek dek' : ByteArr 32} {s : KeySlot W} {i : SlotIndex}

/-- The duress slot is that of the password. -/
def DuressFor (C : Crypto Key W) (h : Header W) : Option String → Prop
  | none => h.duress.enabled = false
  | some q => h.duress.enabled = true ∧
      ∃ kek, deriveKek C q h.duress.salt h.duress.params = .ok kek ∧
        C.wrap kek h.duress.nonce (duressAad h) (duressMarker C h.containerId).val =
          some h.duress.encryptedMarker

/-- The slot is disabled, or it holds the data key for a master password. -/
def SlotFor (C : Crypto Key W) (d : Option String) (dek : ByteArr 32) (h : Header W)
    (s : KeySlot W) : Prop :=
  0 < s.generation → ∃ p, Opens C h s p dek ∧ d ≠ some p

/-- What every header of a container has in common, whichever slots are enabled. -/
structure SlotsInOrder (C : Crypto Key W) (d : Option String) (dek : ByteArr 32) (h : Header W) :
    Prop where
  accepted : HeaderAccepted h
  duress : DuressFor C h d
  slots : ∀ i, SlotFor C d dek h (h.slot i)

structure SlotState (C : Crypto Key W) (d : Option String) (dek : ByteArr 32) (h : Header W) :
    Prop where
  accepted : HeaderAccepted h
  duress : DuressFor C h d
  slots : ∀ i, SlotFor C d dek h (h.slot i)
  newest : ∃ i : SlotIndex, (h.slot i.other).generation < (h.slot i).generation

theorem SlotState.inOrder (st : SlotState C d dek h) : SlotsInOrder C d dek h :=
  ⟨st.accepted, st.duress, st.slots⟩

/-! ## Replacing a slot -/

theorem Opens.setSlot {t : KeySlot W} :
    Opens C (h.setSlot i s) t p dek ↔ Opens C h t p dek :=
  ⟨fun ho => ho.congr (immutableAad_setSlot C h i s),
    fun ho => ho.congr (immutableAad_setSlot C h i s).symm⟩

theorem SlotFor.setSlot {t : KeySlot W} :
    SlotFor C d dek (h.setSlot i s) t ↔ SlotFor C d dek h t := by
  simp only [SlotFor, Opens.setSlot]

theorem duressFor_setSlot : DuressFor C (h.setSlot i s) d ↔ DuressFor C h d := by
  cases i <;> exact Iff.rfl

theorem HeaderAccepted.setSlot (hacc : HeaderAccepted h)
    (hs : 0 < s.generation → validateArgon2 s.params = .ok ()) :
    HeaderAccepted (h.setSlot i s) := by
  have hslots : ∀ t ∈ (h.setSlot i s).slots, 0 < t.generation → validateArgon2 t.params = .ok () := by
    intro t ht
    obtain ⟨j, rfl⟩ := Header.mem_slots.mp ht
    rcases SlotIndex.eq_or_eq_other i j with rfl | rfl
    · rwa [Header.slot_setSlot]
    · rw [Header.slot_other_setSlot]
      exact hacc.slots _ (Header.mem_slots.mpr ⟨_, rfl⟩)
  cases i <;> exact ⟨hacc.magic, hacc.version, hacc.headerSize, hacc.chunkSize, hacc.tagSize_le,
    hacc.indexSize_le, hacc.entryCount_le, hslots, hacc.duress⟩

theorem Opens.validateArgon2 (ho : Opens C h s p dek) : validateArgon2 s.params = .ok () := by
  obtain ⟨kek, hkek, -⟩ := ho
  exact (deriveKek_eq_ok.mp hkek).1

/-- A slot may be replaced by one that is in order. -/
theorem SlotsInOrder.setSlot (io : SlotsInOrder C d dek h) (hs : SlotFor C d dek h s) :
    SlotsInOrder C d dek (h.setSlot i s) where
  accepted := io.accepted.setSlot fun hgen => by
    obtain ⟨p, ho, -⟩ := hs hgen
    exact ho.validateArgon2
  duress := duressFor_setSlot.mpr io.duress
  slots := by
    intro j
    rw [SlotFor.setSlot]
    rcases SlotIndex.eq_or_eq_other i j with rfl | rfl
    · rwa [Header.slot_setSlot]
    · rw [Header.slot_other_setSlot]
      exact io.slots _

/-- One slot stays the newest if the new one differs from the other. -/
theorem SlotState.setSlot (st : SlotState C d dek h) (hs : SlotFor C d dek h s)
    (hnew : (h.slot i.other).generation ≠ s.generation) : SlotState C d dek (h.setSlot i s) where
  accepted := (st.inOrder.setSlot hs).accepted
  duress := (st.inOrder.setSlot hs).duress
  slots := (st.inOrder.setSlot hs).slots
  newest := by
    rw [ne_eq, ← UInt64.toNat_inj] at hnew
    rcases Nat.lt_or_gt_of_ne hnew with hlt | hlt
    · refine ⟨i, ?_⟩
      rwa [Header.slot_setSlot, Header.slot_other_setSlot, UInt64.lt_iff_toNat_lt]
    · refine ⟨i.other, ?_⟩
      rwa [SlotIndex.other_other, Header.slot_setSlot, Header.slot_other_setSlot,
        UInt64.lt_iff_toNat_lt]

/-! ## Unlocking -/

/-- One of the keyslots that `unlock` tries opens with the password. -/
def UnlocksSlot (C : Crypto Key W) (h : Header W) (p : String) : Prop :=
  ∃ s ∈ candidates h, ∃ dek, unlockSlots C h p [s] = .ok (some dek)

theorem unlocksSlot_of_unlock (hunlock : unlock C h p = .ok (.unlocked dek)) :
    UnlocksSlot C h p := by
  have hslots : ∀ slots : List (KeySlot W), unlockSlots C h p slots = .ok (some dek) →
      ∃ s ∈ slots, unlockSlots C h p [s] = .ok (some dek) := by
    intro slots
    induction slots with
    | nil => rintro ⟨⟩
    | cons s rest ih =>
        intro hfound
        rw [unlockSlots, bind_eq_ok] at hfound
        obtain ⟨kek, hkek, hfound⟩ := hfound
        split at hfound
        · rename_i hopen
          refine ⟨s, List.mem_cons_self, ?_⟩
          rw [unlockSlots, hkek, ok_bind, hopen]
          exact hfound
        · obtain ⟨t, ht, hopen⟩ := ih hfound
          exact ⟨t, List.mem_cons_of_mem _ ht, hopen⟩
  rw [unlock, bind_eq_ok] at hunlock
  obtain ⟨-, -, hunlock⟩ := hunlock
  rw [bind_eq_ok] at hunlock
  obtain ⟨found, hfound, hunlock⟩ := hunlock
  cases found with
  | some dek' =>
      cases hunlock
      obtain ⟨s, hs, hopen⟩ := hslots _ hfound
      exact ⟨s, hs, dek, hopen⟩
  | none =>
      -- the duress check never yields a key
      exfalso
      dsimp only at hunlock
      split at hunlock
      · obtain ⟨kek, -, hunlock⟩ := bind_eq_ok.mp hunlock
        split at hunlock <;> cases hunlock
      · cases hunlock

/-- The duress check of `unlock` succeeds with the password. -/
def IsDuress (C : Crypto Key W) (h : Header W) (p : String) : Prop :=
  h.duress.enabled = true ∧ ∃ kek, deriveKek C p h.duress.salt h.duress.params = .ok kek ∧
    C.unwrap kek h.duress.nonce (duressAad h) h.duress.encryptedMarker =
      some (duressMarker C h.containerId).val

theorem isDuress_of_unlock (hunlock : unlock C h p = .ok .duress) : IsDuress C h p := by
  rw [unlock, bind_eq_ok] at hunlock
  obtain ⟨-, -, hunlock⟩ := hunlock
  rw [bind_eq_ok] at hunlock
  obtain ⟨found, -, hunlock⟩ := hunlock
  cases found with
  | some dek'' => cases hunlock
  | none =>
      dsimp only at hunlock
      split at hunlock
      · rename_i henabled
        obtain ⟨kek, hkek, hunlock⟩ := bind_eq_ok.mp hunlock
        split at hunlock
        · rename_i hwrap
          exact ⟨henabled, kek, hkek, hwrap⟩
        · cases hunlock
      · cases hunlock

/-- Argon2 takes the password. -/
def Takes (C : Crypto Key W) (p : String) : Prop :=
  ∃ salt params kek, deriveKek C p salt params = .ok kek

theorem Opens.takes (ho : Opens C h s p dek) : Takes C p := by
  obtain ⟨kek, hkek, -⟩ := ho
  exact ⟨_, _, kek, hkek⟩

theorem Takes.deriveKek (hC : C.Ideal) (ht : Takes C p) {salt : ByteArr 16} {params : Argon2Params}
    (hparams : V2.validateArgon2 params = .ok ()) :
    ∃ kek, V2.deriveKek C p salt params = .ok kek := by
  obtain ⟨salt', params', kek', hkek'⟩ := ht
  obtain ⟨hparams', hsome⟩ := deriveKek_eq_ok.mp hkek'
  have htakes : (C.argon2id p salt params).isSome :=
    hC.argon2_uniform hparams' hparams (Option.isSome_of_eq_some hsome)
  obtain ⟨kek, hkek⟩ := Option.isSome_iff_exists.mp htakes
  exact ⟨kek, deriveKek_eq_ok.mpr ⟨hparams, hkek⟩⟩

namespace SlotsInOrder

variable (hC : C.Ideal) (io : SlotsInOrder C d dek h)

include io in
theorem exists_found (ht : Takes C p) (hC : C.Ideal) :
    ∃ found, unlockSlots C h p (candidates h) = .ok found := by
  refine exists_unlockSlots fun s hs => ht.deriveKek hC ?_
  obtain ⟨hmem, hgen⟩ := mem_candidates.mp hs
  exact io.accepted.slots s hmem hgen

include hC io

/-- Only enabled slots unlock, and only to the data key. -/
theorem unlock_eq_unlocked :
    unlock C h p = .ok (.unlocked dek') ↔
      dek' = dek ∧ ∃ i, 0 < (h.slot i).generation ∧ Opens C h (h.slot i) p dek := by
  have hvalid : validateHeaderBasic h none = .ok () :=
    validateHeaderBasic_eq_ok.mpr ⟨io.accepted, nofun⟩
  have howner : ∀ s ∈ candidates h, ∀ dek', Opens C h s p dek' →
      dek' = dek ∧ ∃ i, 0 < (h.slot i).generation ∧ Opens C h (h.slot i) p dek := by
    intro s hs dek' ho
    obtain ⟨hmem, hgen⟩ := mem_candidates.mp hs
    obtain ⟨i, rfl⟩ := Header.mem_slots.mp hmem
    obtain ⟨p', ho', -⟩ := io.slots i hgen
    obtain ⟨rfl, rfl⟩ := ho.unique hC ho'
    exact ⟨rfl, i, hgen, ho⟩
  rw [unlock, hvalid, ok_bind]
  constructor
  · intro hunlock
    rw [bind_eq_ok] at hunlock
    obtain ⟨found, hfound, hunlock⟩ := hunlock
    cases found with
    | some dek'' =>
        cases hunlock
        obtain ⟨s, hs, ho⟩ := unlockSlots_some hC hfound
        exact howner s hs dek' ho
    | none =>
        -- the duress check never yields a key
        exfalso
        dsimp only at hunlock
        split at hunlock
        · obtain ⟨kek, -, hunlock⟩ := bind_eq_ok.mp hunlock
          split at hunlock <;> cases hunlock
        · cases hunlock
  · rintro ⟨rfl, i, hgen, ho⟩
    obtain ⟨found, hfound⟩ := io.exists_found ho.takes hC
    have hmem : h.slot i ∈ candidates h :=
      mem_candidates.mpr ⟨Header.mem_slots.mpr ⟨i, rfl⟩, hgen⟩
    cases found with
    | some dek'' =>
        obtain ⟨s, hs, ho'⟩ := unlockSlots_some hC hfound
        rw [hfound, ok_bind, (howner s hs dek'' ho').1]
    | none => exact absurd ho (unlockSlots_none hC hfound _ hmem)

/-- Only the duress password is recognised as one. -/
theorem eq_of_isDuress (hduress : IsDuress C h p) : d = some p := by
  obtain ⟨henabled, kek, hkek, hwrap⟩ := hduress
  have hduress := io.duress
  cases d with
  | none => exact absurd henabled (by rw [hduress]; decide)
  | some q =>
      obtain ⟨-, kek', hkek', hwrap'⟩ := hduress
      obtain ⟨rfl, -⟩ := hC.wrap_inj (hC.unwrap_eq_some.mp hwrap) hwrap'
      rw [hC.argon2_inj (deriveKek_eq_ok.mp hkek).2 (deriveKek_eq_ok.mp hkek').2]

theorem eq_of_unlock_eq_duress (hunlock : unlock C h p = .ok .duress) : d = some p :=
  io.eq_of_isDuress hC (isDuress_of_unlock hunlock)

/-- A password that opens an enabled keyslot is not the duress password. -/
theorem not_isDuress_of_unlocksSlot (hslot : UnlocksSlot C h p) : ¬IsDuress C h p := by
  intro hduress
  obtain ⟨s, hs, dek', hunlock⟩ := hslot
  obtain ⟨hmem, hgen⟩ := mem_candidates.mp hs
  obtain ⟨i, rfl⟩ := Header.mem_slots.mp hmem
  obtain ⟨t, ht, hopen⟩ := unlockSlots_some hC hunlock
  obtain rfl : t = h.slot i := List.mem_singleton.mp ht
  obtain ⟨p', hopen', hne⟩ := io.slots i hgen
  obtain ⟨rfl, -⟩ := hopen.unique hC hopen'
  exact hne (io.eq_of_isDuress hC hduress)

/-- The duress password is recognised. -/
theorem unlock_duress (hd : d = some p) : unlock C h p = .ok .duress := by
  subst hd
  obtain ⟨henabled, kek, hkek, hwrap⟩ := io.duress
  obtain ⟨found, hfound⟩ := io.exists_found ⟨_, _, kek, hkek⟩ hC
  have hvalid : validateHeaderBasic h none = .ok () :=
    validateHeaderBasic_eq_ok.mpr ⟨io.accepted, nofun⟩
  rw [unlock, hvalid, ok_bind, hfound, ok_bind]
  cases found with
  | some dek'' =>
      obtain ⟨s, hs, ho⟩ := unlockSlots_some hC hfound
      obtain ⟨hmem, hgen⟩ := mem_candidates.mp hs
      obtain ⟨i, rfl⟩ := Header.mem_slots.mp hmem
      obtain ⟨p', ho', hne⟩ := io.slots i hgen
      exact absurd (congrArg some (ho.unique hC ho').1) hne
  | none =>
      simp only [henabled, if_true, hkek, ok_bind, hC.unwrap_eq_some.mpr hwrap]

end SlotsInOrder

namespace SlotState

variable (hC : C.Ideal) (st : SlotState C d dek h)

include hC st

theorem unlock_eq_unlocked :
    unlock C h p = .ok (.unlocked dek') ↔
      dek' = dek ∧ ∃ i, 0 < (h.slot i).generation ∧ Opens C h (h.slot i) p dek :=
  st.inOrder.unlock_eq_unlocked hC

theorem eq_of_unlock_eq_duress (hunlock : unlock C h p = .ok .duress) : d = some p :=
  st.inOrder.eq_of_unlock_eq_duress hC hunlock

theorem unlock_duress (hd : d = some p) : unlock C h p = .ok .duress :=
  st.inOrder.unlock_duress hC hd

/-- Some password unlocks. -/
theorem exists_unlock : ∃ p, unlock C h p = .ok (.unlocked dek) := by
  obtain ⟨i, hlt⟩ := st.newest
  rw [UInt64.lt_iff_toNat_lt] at hlt
  have hgen : 0 < (h.slot i).generation := by
    rw [UInt64.lt_iff_toNat_lt]
    exact Nat.lt_of_le_of_lt (Nat.zero_le _) hlt
  obtain ⟨p, ho, -⟩ := st.slots i hgen
  exact ⟨p, (st.unlock_eq_unlocked hC).mpr ⟨rfl, i, hgen, ho⟩⟩

end SlotState

end CipherFS.V2
