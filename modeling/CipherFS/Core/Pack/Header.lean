import CipherFS.Core.V2.SlotState

/-!
# The header of a new container

The part of `pack_inner` that makes the header. The first keyslot is for the
master password, the second one is disabled.
-/

namespace CipherFS.Pack

open V2 Result

variable {Key W : Type}

/-- The bytes that `pack_inner` draws for the header, in order. -/
structure HeaderRandom (W : Type) where
  containerId : ByteArr 16
  indexNonce : ByteArr 12
  dek : ByteArr 32
  slot0 : SlotRandom W
  slot1 : SlotRandom W
  duress : SlotRandom W
  configured : SlotRandom W
  keySlot : SlotRandom W

/-- The header literal of `pack_inner`. -/
def blankHeader (indexSize dataSize entryCount : UInt64) (r : HeaderRandom W) : Header W :=
  { magic := magicBytes
    version := V2.version
    headerSize := UInt32.ofNat V2.headerSize
    containerId := r.containerId
    chunkSize := 4194304
    indexSize := indexSize
    dataSize := dataSize
    entryCount := entryCount
    indexNonce := r.indexNonce
    slot0 := KeySlot.randomDisabled r.slot0
    slot1 := KeySlot.randomDisabled r.slot1
    duress := DuressSlot.randomDisabled r.duress }

/-- The checks on the passwords and parameters at the start of `pack_inner`. -/
def checkRequest (password : String) (duressPassword : Option String) (params : Argon2Params) :
    Result Unit := do
  rejectIf (duressPassword = some password)
    "Duress password must differ from the master password"
  validateArgon2 params

/-- The header that `pack_inner` writes: `configure_duress` and `make_key_slot` on
the literal. -/
def packHeader (C : Crypto Key W) (password : String) (duressPassword : Option String)
    (params : Argon2Params) (indexSize dataSize entryCount : UInt64) (r : HeaderRandom W) :
    Result (Header W) := do
  checkRequest password duressPassword params
  let header ← configureDuress C (blankHeader indexSize dataSize entryCount r) duressPassword
    params r.configured
  let slot ← makeKeySlot C header password r.dek 1 params r.keySlot
  .ok (header.setSlot .first slot)

variable {C : Crypto Key W} {h h' : Header W} {d : Option String} {params : Argon2Params}
  {r : SlotRandom W}

/-- `configure_duress` sets the duress slot of the password and leaves the rest. -/
theorem configureDuress_spec (hconf : configureDuress C h d params r = .ok h') :
    DuressFor C h' d ∧ h'.slot0 = h.slot0 ∧ h'.slot1 = h.slot1 := by
  unfold configureDuress at hconf
  cases d with
  | none =>
      cases hconf
      exact ⟨rfl, rfl, rfl⟩
  | some q =>
      simp only [bind_eq_ok, ofOption_eq_ok, Except.ok.injEq] at hconf
      obtain ⟨kek, hkek, w, hw, rfl⟩ := hconf
      exact ⟨⟨rfl, kek, hkek, hw⟩, rfl, rfl⟩

/-- A new container that its own reader accepts has its keyslots in order. -/
theorem slotState_packHeader {password : String} {indexSize dataSize entryCount : UInt64}
    {r : HeaderRandom W} {fileLen : UInt64}
    (hpack : packHeader C password d params indexSize dataSize entryCount r = .ok h)
    (hvalid : validateHeaderBasic h (some fileLen) = .ok ()) :
    SlotState C d r.dek h := by
  simp only [packHeader, checkRequest, bind_eq_ok, rejectIf_eq_ok, Except.ok.injEq] at hpack
  obtain ⟨-, ⟨-, hne, -⟩, conf, hconf, slot, hslot, rfl⟩ := hpack
  obtain ⟨hduress, hs0, hs1⟩ := configureDuress_spec hconf
  obtain ⟨hgen, -, -, -, hopen⟩ := makeKeySlot_eq_ok.mp hslot
  have hdisabled : ((conf.setSlot .first slot).slot .second).generation = 0 := by
    change conf.slot1.generation = 0
    rw [hs1]
    rfl
  refine ⟨(validateHeaderBasic_eq_ok.mp hvalid).1, duressFor_setSlot.mpr hduress, ?_, .first, ?_⟩
  · intro i hi
    cases i with
    | first => exact ⟨password, Opens.setSlot.mpr hopen, hne⟩
    | second =>
        rw [hdisabled] at hi
        exact absurd hi (by decide)
  · change ((conf.setSlot .first slot).slot .second).generation < slot.generation
    rw [hdisabled, hgen]
    decide

end CipherFS.Pack
