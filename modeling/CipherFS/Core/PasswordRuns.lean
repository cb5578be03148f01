import CipherFS.Core.Pack.Header
import CipherFS.Core.V2.PasswordChange

/-!
# Password changes one after the other

A container starts as packing leaves it and goes through calls of
`change_password`, each of which may complete, be refused or stop anywhere.
-/

namespace CipherFS.V2

open Prog

variable {Key W : Type} {C : Crypto Key W} {d : Option String} {dek : ByteArr 32}
  {h h' h₁ h₂ : Header W} {old new : String} {len : UInt64}

/-! ## What a call does to the slots -/

/-- The headers differ in their keyslots at most. -/
def SlotsOnly (h h' : Header W) : Prop := ∃ s₀ s₁, h' = { h with slot0 := s₀, slot1 := s₁ }

theorem SlotsOnly.refl : SlotsOnly h h := ⟨h.slot0, h.slot1, rfl⟩

theorem SlotsOnly.setSlot (hsame : SlotsOnly h h') (i : SlotIndex) (s : KeySlot W) :
    SlotsOnly h (h'.setSlot i s) := by
  obtain ⟨s₀, s₁, rfl⟩ := hsame
  cases i
  · exact ⟨s, s₁, rfl⟩
  · exact ⟨s₀, s, rfl⟩

theorem SlotsOnly.trans (hsame : SlotsOnly h h₁) (hsame' : SlotsOnly h₁ h₂) : SlotsOnly h h₂ := by
  obtain ⟨s₀, s₁, rfl⟩ := hsame
  obtain ⟨t₀, t₁, rfl⟩ := hsame'
  exact ⟨t₀, t₁, rfl⟩

/-- No associated data outside the keyslots depends on a keyslot. -/
theorem SlotsOnly.aad (hsame : SlotsOnly h h') :
    immutableAad C h' = immutableAad C h ∧ indexAad C h' = indexAad C h ∧
      ∀ e i n, chunkAad h' e i n = chunkAad h e i n := by
  obtain ⟨s₀, s₁, rfl⟩ := hsame
  exact ⟨rfl, rfl, fun _ _ _ => rfl⟩

theorem checkedAdd_max_spec {generation : UInt64}
    (hadd : checkedAdd (max h.slot0.generation h.slot1.generation) 1 = some generation)
    (i : SlotIndex) : (h.slot i).generation < generation := by
  have hle : (h.slot i).generation.toNat ≤ (max h.slot0.generation h.slot1.generation).toNat := by
    rw [toNat_max]
    cases i
    · exact Nat.le_max_left _ _
    · exact Nat.le_max_right _ _
  rw [checkedAdd_eq_some_iff] at hadd
  have hone : (1 : UInt64).toNat = 1 := rfl
  rw [UInt64.lt_iff_toNat_lt]
  omega

/-- The slot a call makes: newer than the others, and for the new password. -/
theorem FirstWrite.slot_opens (hC : C.Ideal) (io : SlotsInOrder C d dek h)
    (hfirst : FirstWrite C len old new h h₁) :
    ∃ slot, h₁ = h.setSlot (inactiveSlot h) slot ∧ 0 < slot.generation ∧
      (h.slot (inactiveSlot h).other).generation ≠ slot.generation ∧
      Opens C h slot new dek ∧ d ≠ some new := by
  obtain ⟨dek', generation, r, slot, hadmits, hgen, hslot, rfl⟩ := hfirst
  obtain ⟨rfl, -⟩ := (io.unlock_eq_unlocked hC).mp hadmits.unlocked
  obtain ⟨rfl, -, -, -, hopen⟩ := makeKeySlot_eq_ok.mp hslot
  have hlt := checkedAdd_max_spec hgen
  refine ⟨slot, rfl, ?_, UInt64.ne_of_lt (hlt _), hopen, fun hd => ?_⟩
  · have := hlt .first
    rw [UInt64.lt_iff_toNat_lt] at this ⊢
    exact Nat.lt_of_le_of_lt (Nat.zero_le _) this
  · obtain ⟨found, hfound, hne⟩ := hadmits.new_ne_duress
    rw [io.unlock_duress hC hd] at hfound
    exact hne (Except.ok.inj hfound).symm

/-- After the first write the new password unlocks, with the old ones. -/
theorem FirstWrite.spec (hC : C.Ideal) (st : SlotState C d dek h)
    (hfirst : FirstWrite C len old new h h₁) :
    SlotState C d dek h₁ ∧ SlotsOnly h h₁ ∧ unlock C h₁ new = .ok (.unlocked dek) := by
  obtain ⟨slot, rfl, hgen, hne, hopen, hd⟩ := hfirst.slot_opens hC st.inOrder
  have st₁ := st.setSlot (fun _ => ⟨new, hopen, hd⟩) hne
  refine ⟨st₁, SlotsOnly.refl.setSlot _ _, (st₁.unlock_eq_unlocked hC).mpr
    ⟨rfl, inactiveSlot h, ?_⟩⟩
  rw [Header.slot_setSlot]
  exact ⟨hgen, Opens.setSlot.mpr hopen⟩

/-- After the second write only the new password unlocks. -/
theorem SecondWrite.spec (hC : C.Ideal) (st : SlotState C d dek h)
    (hfirst : FirstWrite C len old new h h₁) (hsecond : SecondWrite h h₁ h₂) :
    SlotState C d dek h₂ ∧ SlotsOnly h h₂ ∧
      ∀ p, (∃ dek', unlock C h₂ p = .ok (.unlocked dek')) ↔ p = new := by
  obtain ⟨st₁, hsame, -⟩ := hfirst.spec hC st
  obtain ⟨slot, rfl, hgen, -, hopen, -⟩ := hfirst.slot_opens hC st.inOrder
  obtain ⟨r, rfl⟩ := hsecond
  have hoff : (KeySlot.randomDisabled r).generation = 0 := rfl
  have st₂ := st₁.setSlot (i := (inactiveSlot h).other) (s := KeySlot.randomDisabled r)
    (fun hon => absurd hon (by rw [hoff]; decide)) (by
      rw [SlotIndex.other_other, Header.slot_setSlot, hoff]
      exact (UInt64.ne_of_lt hgen).symm)
  refine ⟨st₂, hsame.setSlot _ _, fun p => ?_⟩
  have hslot : ((h.setSlot (inactiveSlot h) slot).setSlot (inactiveSlot h).other
      (KeySlot.randomDisabled r)).slot (inactiveSlot h) = slot := by
    have := Header.slot_other_setSlot (h.setSlot (inactiveSlot h) slot) (inactiveSlot h).other
      (KeySlot.randomDisabled r)
    rwa [SlotIndex.other_other, Header.slot_setSlot] at this
  simp only [st₂.unlock_eq_unlocked hC, exists_eq_left, Opens.setSlot]
  constructor
  · rintro ⟨i, hi, ho⟩
    rcases SlotIndex.eq_or_eq_other (inactiveSlot h) i with rfl | rfl
    · rw [hslot] at ho
      exact (ho.unique hC hopen).1
    · rw [Header.slot_setSlot, hoff] at hi
      exact absurd hi (by decide)
  · rintro rfl
    refine ⟨inactiveSlot h, ?_⟩
    rw [hslot]
    exact ⟨hgen, hopen⟩

/-- Wherever a call without the duress password stops, the slots are in order. -/
theorem Progress.slotState (hC : C.Ideal) (st : SlotState C d dek h) (hold : d ≠ some old)
    {ws : List (Header W)} (hp : Progress C len old new h ws h') :
    SlotState C d dek h' ∧ SlotsOnly h h' := by
  cases hp with
  | unchanged => exact ⟨st, .refl⟩
  | first hfirst => exact ⟨(hfirst.spec hC st).1, (hfirst.spec hC st).2.1⟩
  | second hfirst hsecond =>
      exact ⟨(hsecond.spec hC st hfirst).1, (hsecond.spec hC st hfirst).2.1⟩
  | wiped hduress => exact absurd (st.eq_of_unlock_eq_duress hC hduress) hold

/-! ## Runs of calls -/

/-- The stored header after a call. -/
def Call.step (C : Crypto Key W) (fileLen : UInt64) (h : Header W) (c : Call W) :
    Option (Header W) :=
  (c.run C fileLen h).map fun r => r.2.header

theorem slotState_of_run (hC : C.Ideal) {calls : List (Call W)}
    (hold : ∀ c ∈ calls, d ≠ some c.oldPassword) (st : SlotState C d dek h)
    (hrun : CipherFS.run (Call.step C len) h calls = some h') :
    SlotState C d dek h' ∧ SlotsOnly h h' := by
  refine run_inv (I := fun m => SlotState C d dek m ∧ SlotsOnly h m) ?_ hrun ⟨st, .refl⟩
  rintro m c m' hc ⟨hst, hsame⟩ hstep
  obtain ⟨⟨t, v⟩, hcall, rfl⟩ := Option.map_eq_some_iff.mp hstep
  obtain ⟨hst', hsame'⟩ := (Call.run_spec hcall).1.slotState hC hst (hold c hc)
  exact ⟨hst', hsame.trans hsame'⟩

/-- **Password changes never lose the container.** However the calls before it
ended, some password unlocks, and only to the data key; a call that succeeds
leaves the new password alone, one that stops after its first write leaves the
new password among others, one that wrote nothing leaves the header. -/
theorem password_changes_keep_container (hC : C.Ideal) {password : String}
    {params : Argon2Params} {indexSize dataSize entryCount : UInt64} {r : Pack.HeaderRandom W}
    (hpack : Pack.packHeader C password d params indexSize dataSize entryCount r = .ok h)
    (hvalid : validateHeaderBasic h (some len) = .ok ()) {calls : List (Call W)}
    (hold : ∀ c ∈ calls, d ≠ some c.oldPassword)
    (hrun : CipherFS.run (Call.step C len) h calls = some h') :
    (∃ p, unlock C h' p = .ok (.unlocked r.dek)) ∧
    (∀ p dek, unlock C h' p = .ok (.unlocked dek) → dek = r.dek) ∧
    (immutableAad C h' = immutableAad C h ∧ indexAad C h' = indexAad C h ∧
      ∀ e i n, chunkAad h' e i n = chunkAad h e i n) ∧
    ∀ (c : Call W) t v, d ≠ some c.oldPassword → c.run C len h' = some (t, v) →
      (t = .done → ∀ p, (∃ dek, unlock C v.header p = .ok (.unlocked dek)) ↔ p = c.newPassword) ∧
      (v.writes.length = 1 → unlock C v.header c.newPassword = .ok (.unlocked r.dek)) ∧
      (v.writes = [] → v.header = h') := by
  obtain ⟨st, hsame⟩ := slotState_of_run hC hold (Pack.slotState_packHeader hpack hvalid) hrun
  refine ⟨st.exists_unlock hC, fun p dek hu => ((st.unlock_eq_unlocked hC).mp hu).1, hsame.aad,
    fun c t v hc hcall => ?_⟩
  obtain ⟨hp, hfin⟩ := Call.run_spec hcall
  obtain ⟨stored, fileLen, control, writes⟩ := v
  change Progress C len c.oldPassword c.newPassword h' writes stored at hp
  refine ⟨fun hdone => ?_, ?_, ?_⟩
  · obtain ⟨h₁, h₂, hfirst, hsecond, -, rfl⟩ := hfin hdone
    exact (hsecond.spec hC st hfirst).2.2
  · intro hlen
    cases hp with
    | unchanged => cases hlen
    | first hfirst => exact (hfirst.spec hC st).2.2
    | second _ _ => cases hlen
    | wiped hduress => exact absurd (st.eq_of_unlock_eq_duress hC hduress) hc
  · rintro (rfl : writes = [])
    cases hp with
    | unchanged => rfl

def sampleSlotRandom : SlotRandom (IdealKey × ByteArr 12 × Bytes × Bytes) :=
  ⟨ByteArr.zero 16, ByteArr.zero 12, ("", ByteArr.zero 16, .default), ByteArr.zero 12, [], []⟩

def sampleHeaderRandom : Pack.HeaderRandom (IdealKey × ByteArr 12 × Bytes × Bytes) :=
  ⟨ByteArr.zero 16, ByteArr.zero 12, ByteArr.zero 32, sampleSlotRandom, sampleSlotRandom,
    sampleSlotRandom, sampleSlotRandom, sampleSlotRandom⟩

/-- A container with a duress password. -/
def duressHeader : Header (IdealKey × ByteArr 12 × Bytes × Bytes) :=
  (Pack.packHeader idealCrypto "old" (some "duress") ⟨8192, 1, 1⟩ 16 0 1
    sampleHeaderRandom).toOption.getD (Pack.blankHeader 16 0 1 sampleHeaderRandom)

/-- A password change that runs to its end. -/
def sampleCall : Call (IdealKey × ByteArr 12 × Bytes × Bytes) :=
  ⟨"old", "new", List.replicate 11 (.task (.here ⟨sampleSlotRandom, none, false⟩))⟩

theorem password_changes_keep_container_sample : ∃ h h',
    Pack.packHeader idealCrypto "old" (some "duress") ⟨8192, 1, 1⟩ 16 0 1 sampleHeaderRandom =
      .ok h ∧
    CipherFS.run (Call.step idealCrypto 4112) h [sampleCall] = some h' ∧
    ∃ p, unlock idealCrypto h' p = .ok (.unlocked sampleHeaderRandom.dek) := by
  obtain ⟨h, hpack, hvalid, hsome⟩ : ∃ h,
      Pack.packHeader idealCrypto "old" (some "duress") ⟨8192, 1, 1⟩ 16 0 1 sampleHeaderRandom =
        .ok h ∧
      validateHeaderBasic h (some 4112) = .ok () ∧
      (CipherFS.run (Call.step idealCrypto 4112) h [sampleCall]).isSome :=
    ⟨_, rfl, by decide +kernel, by decide +kernel⟩
  obtain ⟨h', hrun⟩ := Option.isSome_iff_exists.mp hsome
  exact ⟨h, h', hpack, hrun, (password_changes_keep_container idealCrypto_ideal hpack hvalid
    (by decide) hrun).1⟩

end CipherFS.V2
