import CipherFS.Core.DuressRuns

/-!
# Between the two header writes of a password change

After the first write of a change the new keyslot and the kept one both open. A
password is answered there as it was before the change, if the kept slot decides,
or else as it is after the change.
-/

namespace CipherFS.V2

open Result

variable {Key W : Type} {C : Crypto Key W} {h h' h₁ h₂ g : Header W} {old new p : String}
  {len : UInt64} {i : SlotIndex} {s : KeySlot W} {d : Option String} {dek : ByteArr 32}

/-! ## Trying the slots -/

theorem unlockSlots_cons (rest : List (KeySlot W)) : unlockSlots C g p (s :: rest) =
    (do
      let found ← unlockSlots C g p [s]
      match found with
      | some dek => .ok (some dek)
      | none => unlockSlots C g p rest) := by
  rw [unlockSlots, unlockSlots]
  cases deriveKek C p s.salt s.params with
  | error e => rfl
  | ok kek =>
      rw [ok_bind, ok_bind]
      split <;> rfl

theorem unlockSlots_congr (hsame : SlotsOnly h h') (slots : List (KeySlot W)) :
    unlockSlots C h' p slots = unlockSlots C h p slots := by
  induction slots with
  | nil => rfl
  | cons s rest ih => rw [unlockSlots, unlockSlots, ih, slotAad_congr hsame.aad.1]

theorem HeaderAccepted.valid (hacc : HeaderAccepted g) : validateHeaderBasic g none = .ok () :=
  validateHeaderBasic_eq_ok.mpr ⟨hacc, nofun⟩

/-- The password is answered alike where the slots answer it alike. -/
theorem unlock_congr (hsame : SlotsOnly h h') (hacc : HeaderAccepted h) (hacc' : HeaderAccepted h')
    (hslots : unlockSlots C h' p (candidates h') = unlockSlots C h p (candidates h)) :
    unlock C h' p = unlock C h p := by
  rw [unlock, unlock, hacc.valid, hacc'.valid, hslots]
  obtain ⟨s₀, s₁, rfl⟩ := hsame
  rfl

theorem SlotsOnly.symm (hsame : SlotsOnly h h') : SlotsOnly h' h := by
  obtain ⟨s₀, s₁, rfl⟩ := hsame
  exact ⟨h.slot0, h.slot1, rfl⟩

theorem makeKeySlot_congr (hsame : SlotsOnly h h') (password : String) (generation : UInt64)
    (params : Argon2Params) (r : SlotRandom W) :
    makeKeySlot C h' password dek generation params r =
      makeKeySlot C h password dek generation params r := by
  simp only [makeKeySlot, slotAad_congr hsame.aad.1]

theorem isDuress_congr (hsame : SlotsOnly h h') : IsDuress C h' p ↔ IsDuress C h p := by
  obtain ⟨s₀, s₁, rfl⟩ := hsame
  exact Iff.rfl

/-! ## Headers with one newest slot -/

/-- One keyslot is the newer one unless both are disabled, and no password of a
keyslot is the duress password. -/
structure KeyslotsApart (C : Crypto Key W) (h : Header W) : Prop where
  newest : h.slot0.generation = h.slot1.generation → h.slot0.generation = 0
  passwords : ∀ p, UnlocksSlot C h p → ¬IsDuress C h p

theorem SlotState.keyslotsApart (hC : C.Ideal) (st : SlotState C d dek h) : KeyslotsApart C h where
  newest heq := by
    obtain ⟨i, hlt⟩ := st.newest
    cases i with
    | first => exact absurd heq.symm (UInt64.ne_of_lt hlt)
    | second => exact absurd heq (UInt64.ne_of_lt hlt)
  passwords _ := st.inOrder.not_isDuress_of_unlocksSlot hC

theorem Wiped.keyslotsApart (hw : Wiped h) : KeyslotsApart C h where
  newest _ := hw .first
  passwords _ hslot := absurd hslot hw.not_unlocksSlot

/-- Packing leaves the keyslots apart, and so do `open` and `change_password`
wherever they stop. -/
theorem keyslotsApart_of_run (hC : C.Ideal) {password : String} {params : Argon2Params}
    {indexSize dataSize entryCount : UInt64} {r : Pack.HeaderRandom W}
    (hpack : Pack.packHeader C password d params indexSize dataSize entryCount r = .ok h)
    (hvalid : validateHeaderBasic h (some len) = .ok ()) {accesses : List (Access W)}
    (hrun : CipherFS.run (Access.step C len) h accesses = some h') : KeyslotsApart C h' := by
  have st := Pack.slotState_packHeader hpack hvalid
  have hinv : SlotsInOrder C d r.dek h' ∧ (SlotState C d r.dek h' ∨ Wiped h') := by
    refine run_inv (I := fun m => SlotsInOrder C d r.dek m ∧ (SlotState C d r.dek m ∨ Wiped m))
      ?_ hrun ⟨st.inOrder, .inl st⟩
    rintro m a m' _ ⟨io, hm⟩ hstep
    obtain ⟨⟨t, v⟩, ha, rfl⟩ := Option.map_eq_some_iff.mp hstep
    have hp := Access.run_spec ha
    refine ⟨(hp.inOrder hC io).1, ?_⟩
    rcases hm with hstate | hw
    · by_cases hd : d = some a.operation.password
      · by_cases hws : v.writes = []
        · rw [hws] at hp
          generalize v.header = g at hp
          cases hp
          exact .inl hstate
        · exact .inr (hp.wiped_of_duress hC io hd hws)
      · exact .inl (hp.slotState hC hstate hd).1
    · exact .inr (hp.wiped_stays hC io hw)
  obtain ⟨-, hstate | hw⟩ := hinv
  · exact hstate.keyslotsApart hC
  · exact hw.keyslotsApart

/-! ## The half-changed header -/

theorem inactiveSlot_of_lt (hlt : (g.slot i).generation < (g.slot i.other).generation) :
    inactiveSlot g = i := by
  cases i with
  | first => exact if_pos (UInt64.le_of_lt hlt)
  | second => exact if_neg (UInt64.not_le.mpr hlt)

theorem max_generation_of_lt (hlt : (g.slot i).generation < (g.slot i.other).generation) :
    max g.slot0.generation g.slot1.generation = (g.slot i.other).generation := by
  cases i with
  | first => exact if_pos (UInt64.le_of_lt hlt)
  | second => exact if_neg (UInt64.not_le.mpr hlt)

/-- A change overwrites the older slot, and the other one is enabled. -/
theorem FirstWrite.lt_kept (hapart : KeyslotsApart C h) (hfirst : FirstWrite C len old new h h₁) :
    (h.slot (inactiveSlot h)).generation < (h.slot (inactiveSlot h).other).generation := by
  obtain ⟨dek, -, -, -, hadmits, -⟩ := hfirst
  have hne : h.slot0.generation ≠ h.slot1.generation := by
    intro heq
    have hzero := hapart.newest heq
    obtain ⟨s, hs, -⟩ := unlocksSlot_of_unlock hadmits.unlocked
    obtain ⟨hmem, hgen⟩ := mem_candidates.mp hs
    obtain ⟨i, rfl⟩ := Header.mem_slots.mp hmem
    cases i with
    | first => exact (UInt64.ne_of_lt hgen) hzero.symm
    | second => exact (UInt64.ne_of_lt hgen) (heq.symm.trans hzero).symm
  rw [inactiveSlot]
  split
  · rename_i hle
    exact UInt64.lt_of_le_of_ne hle hne
  · rename_i hle
    exact UInt64.not_le.mp hle

/-- The slot of the first write is the newest one, with the parameters of the kept one. -/
theorem FirstWrite.exists_slot (hfirst : FirstWrite C len old new h h₁) :
    ∃ slot, h₁ = h.setSlot (inactiveSlot h) slot ∧ HeaderAccepted h ∧ HeaderAccepted h₁ ∧
      slot.params = (h.slot (inactiveSlot h).other).params ∧
      ∀ i, (h.slot i).generation < slot.generation := by
  obtain ⟨dek, generation, r, slot, hadmits, hgen, hslot, rfl⟩ := hfirst
  obtain ⟨rfl, -, hparams, -, hopen⟩ := makeKeySlot_eq_ok.mp hslot
  have hacc := (validateHeaderBasic_eq_ok.mp hadmits.valid).1
  exact ⟨slot, rfl, hacc, hacc.setSlot fun _ => hopen.validateArgon2, hparams,
    checkedAdd_max_spec hgen⟩

/-- How a password is answered between the two writes. -/
inductive HalfAnswer (C : Crypto Key W) (h h₁ h₂ : Header W) (p : String) : Prop
  | after : unlock C h₁ p = unlock C h₂ p → HalfAnswer C h h₁ h₂ p
  | refused {e : Error} : unlock C h₁ p = .error e → unlock C h p = .error e →
      HalfAnswer C h h₁ h₂ p
  | opened {dek : ByteArr 32} : unlock C h₁ p = .ok (.unlocked dek) →
      unlock C h p = .ok (.unlocked dek) → UnlocksSlot C h p →
      (∀ dek', unlock C h₂ p ≠ .ok (.unlocked dek')) → HalfAnswer C h h₁ h₂ p

theorem unlock_eq_error_of_slots {e : Error} (hacc : HeaderAccepted g)
    (hslots : unlockSlots C g p (candidates g) = .error e) : unlock C g p = .error e := by
  rw [unlock, hacc.valid, ok_bind, hslots]
  rfl

theorem unlock_eq_unlocked_of_slots (hacc : HeaderAccepted g)
    (hslots : unlockSlots C g p (candidates g) = .ok (some dek)) :
    unlock C g p = .ok (.unlocked dek) := by
  rw [unlock, hacc.valid, ok_bind, hslots]
  rfl

/-- Which slots are tried before, between and after the writes. -/
theorem candidates_half {slot : KeySlot W} {r : SlotRandom W}
    (hkept : (h.slot i).generation < (h.slot i.other).generation)
    (hnewest : ∀ j, (h.slot j).generation < slot.generation) :
    (∃ rest, candidates h = h.slot i.other :: rest) ∧
    candidates (h.setSlot i slot) = [slot, h.slot i.other] ∧
    candidates ((h.setSlot i slot).setSlot i.other (KeySlot.randomDisabled r)) = [slot] := by
  have hslot₂ : ((h.setSlot i slot).setSlot i.other (KeySlot.randomDisabled r)).slot i = slot := by
    cases i <;> rfl
  refine ⟨⟨_, candidates_newest (by rwa [SlotIndex.other_other])⟩, ?_, ?_⟩
  · rw [candidates_newest (i := i) (by simpa using hnewest i.other), Header.slot_setSlot,
      Header.slot_other_setSlot, if_pos]
    exact UInt64.lt_of_le_of_lt UInt64.zero_le hkept
  · have hoff : ¬0 < (KeySlot.randomDisabled r).generation := UInt64.lt_irrefl 0
    rw [candidates_newest (i := i), hslot₂, Header.slot_setSlot, if_neg hoff]
    rw [hslot₂, Header.slot_setSlot]
    exact UInt64.lt_of_le_of_lt UInt64.zero_le (hnewest i)

/-- **Between the writes the new slot is asked first, and then the kept one.** -/
theorem halfAnswer (hapart : KeyslotsApart C h) (hfirst : FirstWrite C len old new h h₁)
    (hsecond : SecondWrite h h₁ h₂) (p : String) : HalfAnswer C h h₁ h₂ p := by
  have hkept := hfirst.lt_kept hapart
  obtain ⟨slot, rfl, hacc, hacc₁, -, hnewest⟩ := hfirst.exists_slot
  obtain ⟨r, rfl⟩ := hsecond
  generalize inactiveSlot h = i at *
  have hacc₂ : HeaderAccepted ((h.setSlot i slot).setSlot i.other (KeySlot.randomDisabled r)) :=
    hacc₁.setSlot fun hon => absurd hon (UInt64.lt_irrefl 0)
  obtain ⟨⟨rest, hc⟩, hc₁, hc₂⟩ := candidates_half (r := r) hkept hnewest
  have hsame₁ : SlotsOnly h (h.setSlot i slot) := SlotsOnly.refl.setSlot _ _
  have hsame₂ : SlotsOnly (h.setSlot i slot)
      ((h.setSlot i slot).setSlot i.other (KeySlot.randomDisabled r)) := SlotsOnly.refl.setSlot _ _
  have hall₁ := unlockSlots_congr (C := C) (p := p) hsame₁
  have hall₂ := unlockSlots_congr (C := C) (p := p) (hsame₁.trans hsame₂)
  have hafter (heq : unlockSlots C h p [slot, h.slot i.other] = unlockSlots C h p [slot]) :
      HalfAnswer C h (h.setSlot i slot)
        ((h.setSlot i slot).setSlot i.other (KeySlot.randomDisabled r)) p :=
    .after (unlock_congr hsame₂ hacc₁ hacc₂ (by rw [hc₁, hc₂, hall₁, hall₂, heq])).symm
  cases hnew : unlockSlots C h p [slot] with
  | error e => exact hafter (by rw [unlockSlots_cons, hnew]; rfl)
  | ok found =>
      cases found with
      | some dek => exact hafter (by rw [unlockSlots_cons, hnew]; rfl)
      | none =>
          have hrest : unlockSlots C h p [slot, h.slot i.other] =
              unlockSlots C h p [h.slot i.other] := by
            rw [unlockSlots_cons, hnew]
            rfl
          have hslots₁ : unlockSlots C (h.setSlot i slot) p (candidates (h.setSlot i slot)) =
              unlockSlots C h p [h.slot i.other] := by rw [hc₁, hall₁, hrest]
          cases hold : unlockSlots C h p [h.slot i.other] with
          | error e =>
              refine .refused (unlock_eq_error_of_slots hacc₁ (hslots₁.trans hold))
                (unlock_eq_error_of_slots hacc ?_)
              rw [hc, unlockSlots_cons, hold]
              rfl
          | ok found =>
              cases found with
              | none => exact hafter (hrest.trans (hold.trans hnew.symm))
              | some dek =>
                  refine .opened (unlock_eq_unlocked_of_slots hacc₁ (hslots₁.trans hold))
                    (unlock_eq_unlocked_of_slots hacc ?_)
                    ⟨h.slot i.other, hc ▸ List.mem_cons_self, dek, hold⟩ fun dek' hu => ?_
                  · rw [hc, unlockSlots_cons, hold]
                    rfl
                  · obtain ⟨s, hs, dek'', hopen⟩ := unlocksSlot_of_unlock hu
                    rw [hc₂, List.mem_singleton] at hs
                    rw [hs, hall₂, hnew] at hopen
                    cases hopen

/-- What a change works out from the half-changed header is what it works out from
the changed one. -/
theorem half_eq_after (hfirst : FirstWrite C len old new h h₁) (hsecond : SecondWrite h h₁ h₂) :
    inactiveSlot h₁ = inactiveSlot h₂ ∧
      max h₁.slot0.generation h₁.slot1.generation =
        max h₂.slot0.generation h₂.slot1.generation ∧
      h₁.slot (inactiveSlot h₂).other = h₂.slot (inactiveSlot h₂).other := by
  obtain ⟨slot, rfl, -, -, -, hnewest⟩ := hfirst.exists_slot
  obtain ⟨r, rfl⟩ := hsecond
  generalize inactiveSlot h = i at *
  have hlt₁ : ((h.setSlot i slot).slot i.other).generation <
      ((h.setSlot i slot).slot i.other.other).generation := by
    rw [SlotIndex.other_other, Header.slot_setSlot, Header.slot_other_setSlot]
    exact hnewest i.other
  have hslot₂ : ((h.setSlot i slot).setSlot i.other (KeySlot.randomDisabled r)).slot i = slot := by
    cases i <;> rfl
  have hlt₂ : (((h.setSlot i slot).setSlot i.other (KeySlot.randomDisabled r)).slot
      i.other).generation < (((h.setSlot i slot).setSlot i.other
        (KeySlot.randomDisabled r)).slot i.other.other).generation := by
    rw [SlotIndex.other_other, Header.slot_setSlot, hslot₂]
    exact UInt64.lt_of_le_of_lt UInt64.zero_le (hnewest i)
  rw [inactiveSlot_of_lt hlt₁, inactiveSlot_of_lt hlt₂, max_generation_of_lt hlt₁,
    max_generation_of_lt hlt₂, SlotIndex.other_other, Header.slot_setSlot, hslot₂]
  exact ⟨rfl, rfl, rfl⟩

end CipherFS.V2
