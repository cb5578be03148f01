import CipherFS.Core.Operation
import CipherFS.Core.V2.SlotState

/-!
# Changing the password

`change_password_inner` as a program on the stored header. A header write is one
step; between any two steps the operation can be cancelled, and it can stop for
good after any step.
-/

namespace CipherFS.V2

open Result

variable {Key W : Type}

/-- A container file as a password change sees it: the stored header, the length
of the file, and the headers this call has written so far. -/
structure Vault (W : Type) where
  header : Header W
  fileLen : UInt64
  control : Control
  writes : List (Header W)

instance : Controlled (Vault W) where
  control := Vault.control
  setControl v c := { v with control := c }

/-- What a step is answered: the random bytes it asks for, and an I/O error if
there is one. An error of a write can come before or after its effect. -/
structure VaultInput (W : Type) where
  random : SlotRandom W
  fault : Option String
  late : Bool

/-- A container at the start of a call. -/
def Vault.start (h : Header W) (fileLen : UInt64) : Vault W := ⟨h, fileLen, .start, []⟩

/-- Somebody cancels the operation. -/
def Vault.cancel (v : Vault W) (_ : Unit) : Option (Vault W) :=
  some { v with control := { v.control with cancelled := true } }

abbrev VaultProg (W α : Type) := Prog (Vault W) (VaultInput W) Error α

namespace VaultProg

/-- Opening the container for reading and writing. -/
def openFile : VaultProg W Unit :=
  Prog.call fun i v => (i.fault.elim (.ok ()) Result.ioError, v)

/-- `read_header`, on a header that is stored whole. -/
def readHeader : VaultProg W (Header W) := Prog.call fun i v =>
  (match i.fault with
    | some text => (Result.ioError text).context "Unable to read v2 header"
    | none => do
      validateHeaderBasic v.header (some v.fileLen)
      .ok v.header, v)

/-- `write_header`. -/
def writeHeader (header : Header W) : VaultProg W Unit := Prog.call fun i v =>
  let written := { v with header := header, writes := v.writes ++ [header] }
  match i.fault with
  | none => (.ok (), written)
  | some text => (Result.ioError text, if i.late then written else v)

/-- The random bytes of one slot. -/
def random : VaultProg W (SlotRandom W) := Prog.call fun i v => (.ok i.random, v)

end VaultProg

open VaultProg Prog

/-- One slot of `wipe_for_duress`. -/
def KeySlot.wiped (slot : KeySlot W) (r : SlotRandom W) : KeySlot W :=
  { slot with generation := 0, salt := r.salt, nonce := r.nonce, encryptedDek := r.encryptedDek }

/-- The header that `wipe_for_duress` writes. -/
def wipedHeader (header : Header W) (r₀ r₁ : SlotRandom W) : Header W :=
  { header with slot0 := header.slot0.wiped r₀, slot1 := header.slot1.wiped r₁ }

/-- `wipe_for_duress`. -/
def wipeForDuress (header : Header W) : VaultProg W Unit := do
  let r₀ ← random
  let r₁ ← random
  openFile
  writeHeader (wipedHeader header r₀ r₁)

/-- The slot that `change_password_inner` overwrites: the older one. -/
def inactiveSlot (header : Header W) : SlotIndex :=
  if header.slot0.generation ≤ header.slot1.generation then .first else .second

/-- The `match` on the unlock result of the current password. -/
def currentDek (header : Header W) : UnlockResult → VaultProg W (ByteArr 32)
  | .unlocked dek => pure dek
  | .duress => do
      check
      event .mutationStarted
      wipeForDuress header
      bail "Unable to unlock container (wrong password or damage)"
  | .failed => bail "Unable to unlock container (wrong password or damage)"

/-- The end of `change_password_inner`: the two header writes. -/
def rewriteSlots (C : Crypto Key W) (header : Header W) (dek : ByteArr 32)
    (newPassword : String) : VaultProg W Unit := do
  let highest := max header.slot0.generation header.slot1.generation
  let inactive := inactiveSlot header
  let previous := inactive.other
  let params := (header.slot previous).params
  let generation ← ofExcept (ofOption (checkedAdd highest 1) "Keyslot generation overflow")
  let r ← random
  let slot ← ofExcept (makeKeySlot C header newPassword dek generation params r)
  let header := header.setSlot inactive slot
  check
  event .mutationStarted
  writeHeader header
  let r ← random
  let header := header.setSlot previous (KeySlot.randomDisabled r)
  writeHeader header

/-- `change_password_inner`. -/
def changePasswordInner (C : Crypto Key W) (oldPassword newPassword : String) :
    VaultProg W Unit := do
  check
  openFile
  let header ← VaultProg.readHeader
  event (.phaseStarted .keyDerivation)
  let found ← ofExcept (unlock C header newPassword)
  rejectIf (found = .duress) "New master password must differ from the configured Duress password"
  check
  let found ← ofExcept (unlock C header oldPassword)
  let dek ← currentDek header found
  rewriteSlots C header dek newPassword

/-! ## What a call writes -/

variable {C : Crypto Key W} {len : UInt64} {h h₁ h₂ : Header W} {old new : String}

/-- The header is read, the new password is not the duress password, and the
current one unlocks. -/
structure Admits (C : Crypto Key W) (len : UInt64) (old new : String) (dek : ByteArr 32)
    (h : Header W) : Prop where
  valid : validateHeaderBasic h (some len) = .ok ()
  new_ne_duress : ∃ found, unlock C h new = .ok found ∧ found ≠ .duress
  unlocked : unlock C h old = .ok (.unlocked dek)

/-- The first header of a call: the older slot made anew, for the new password. -/
def FirstWrite (C : Crypto Key W) (len : UInt64) (old new : String) (h h₁ : Header W) : Prop :=
  ∃ dek generation r slot, Admits C len old new dek h ∧
    checkedAdd (max h.slot0.generation h.slot1.generation) 1 = some generation ∧
    makeKeySlot C h new dek generation (h.slot (inactiveSlot h).other).params r = .ok slot ∧
    h₁ = h.setSlot (inactiveSlot h) slot

/-- The second header of a call: the other slot disabled. -/
def SecondWrite (h h₁ h₂ : Header W) : Prop :=
  ∃ r, h₂ = h₁.setSlot (inactiveSlot h).other (KeySlot.randomDisabled r)

/-- The headers a call has written by some moment, and the one that is stored. -/
inductive Progress (C : Crypto Key W) (len : UInt64) (old new : String) (h : Header W) :
    List (Header W) → Header W → Prop
  | unchanged : Progress C len old new h [] h
  | first {h₁ : Header W} : FirstWrite C len old new h h₁ → Progress C len old new h [h₁] h₁
  | second {h₁ h₂ : Header W} : FirstWrite C len old new h h₁ → SecondWrite h h₁ h₂ →
      Progress C len old new h [h₁, h₂] h₂
  | wiped {r₀ r₁ : SlotRandom W} : unlock C h old = .ok .duress →
      Progress C len old new h [wipedHeader h r₀ r₁] (wipedHeader h r₀ r₁)

/-- The course of a call that nothing stopped. -/
def Finished (C : Crypto Key W) (len : UInt64) (old new : String) (h : Header W)
    (v : Vault W) : Prop :=
  ∃ h₁ h₂, FirstWrite C len old new h h₁ ∧ SecondWrite h h₁ h₂ ∧ v.writes = [h₁, h₂] ∧
    v.header = h₂

/-! ## Every call follows that course -/

/-- Where a call stands: what is stored, and what it has written. -/
structure At (len : UInt64) (h : Header W) (ws : List (Header W)) (v : Vault W) : Prop where
  header : v.header = h
  writes : v.writes = ws
  fileLen : v.fileLen = len

/-- Nobody but the call writes the header. -/
def othersCancel : Rely (Vault W) where
  rel v v' := At v.fileLen v.header v.writes v'
  refl _ := ⟨rfl, rfl, rfl⟩
  trans h₁ h₂ := ⟨h₂.1.trans h₁.1, h₂.2.trans h₁.2, h₂.3.trans h₁.3⟩

/-- Every step of the call keeps to the course of `Progress`. -/
def keepsProgress (C : Crypto Key W) (len : UInt64) (old new : String) (h : Header W)
    (v v' : Vault W) : Prop :=
  Progress C len old new h v.writes v.header → Progress C len old new h v'.writes v'.header

theorem stable_at {ws : List (Header W)} : othersCancel.Stable (At len h ws) :=
  fun _ _ hv hR => ⟨hR.1.trans hv.1, hR.2.trans hv.2, hR.3.trans hv.3⟩

section Triples

variable {h₀ : Header W} {ws : List (Header W)} {α : Type}

/-- The triples of a call: any inputs, and an error at any place. -/
abbrev CallTriple (C : Crypto Key W) (len : UInt64) (old new : String) (h₀ : Header W)
    (P : Vault W → Prop) (m : VaultProg W α) (Q : α → Vault W → Prop) : Prop :=
  Triple (fun _ => True) othersCancel (keepsProgress C len old new h₀) P m Q fun _ _ => True

/-- A step that does not write leaves the call where it is. -/
theorem triple_silent {f : VaultInput W → Vault W → Except Error α × Vault W}
    (hf : ∀ i v, othersCancel.rel v (f i v).2) :
    CallTriple C len old new h₀ (At len h ws) (call f)
      fun a v => At len h ws v ∧ ∃ i u, At len h ws u ∧ (f i u).1 = .ok a := by
  refine .call stable_at fun i v _ hv => ⟨fun hp => ?_, ?_⟩
  · rw [(hf i v).1, (hf i v).2]
    exact hp
  · cases hr : (f i v).1 with
    | ok a => exact ⟨stable_at v _ hv (hf i v), i, v, hv, hr⟩
    | error e => trivial

theorem triple_skip {f : VaultInput W → Vault W → Except Error α × Vault W}
    (hf : ∀ i v, othersCancel.rel v (f i v).2) :
    CallTriple C len old new h₀ (At len h ws) (call f) fun _ => At len h ws :=
  (triple_silent hf).conseq (fun _ hv => hv) (fun _ _ hv => hv.1) fun _ _ he => he

theorem triple_check : CallTriple C len old new h₀ (At len h ws) check fun _ => At len h ws :=
  triple_skip fun _ v => othersCancel.refl v

theorem triple_event (e : OperationEvent) :
    CallTriple C len old new h₀ (At len h ws) (event e) fun _ => At len h ws :=
  triple_skip fun _ _ => ⟨rfl, rfl, rfl⟩

theorem triple_openFile :
    CallTriple C len old new h₀ (At len h ws) openFile fun _ => At len h ws :=
  triple_skip fun _ v => othersCancel.refl v

theorem triple_random : CallTriple C len old new h₀ (At len h ws)
    (random : VaultProg W (SlotRandom W)) fun _ => At len h ws :=
  triple_skip fun _ v => othersCancel.refl v

theorem triple_readHeader : CallTriple C len old new h₀ (At len h ws) VaultProg.readHeader
    fun a v => (a = h ∧ validateHeaderBasic h (some len) = .ok ()) ∧ At len h ws v := by
  refine (triple_silent fun _ v => othersCancel.refl v).conseq (fun _ hv => hv) ?_ fun _ _ he => he
  rintro a v ⟨hv, i, u, hu, hread⟩
  refine ⟨?_, hv⟩
  dsimp only at hread
  split at hread
  · cases hread
  · obtain ⟨⟨⟩, hvalid, ha⟩ := bind_eq_ok.mp hread
    rw [hu.header, hu.fileLen] at hvalid
    exact ⟨(Except.ok.inj ha).symm.trans hu.header, hvalid⟩

/-- A write takes the call on, or fails before its effect. -/
theorem triple_writeHeader (hprogress : Progress C len old new h₀ (ws ++ [h₁]) h₁) :
    CallTriple C len old new h₀ (At len h ws) (writeHeader h₁)
      fun _ => At len h₁ (ws ++ [h₁]) := by
  refine .call stable_at fun i v _ hv => ?_
  obtain ⟨-, rfl, hlen⟩ := hv
  cases hfault : i.fault with
  | none => exact ⟨fun _ => hprogress, rfl, rfl, hlen⟩
  | some text =>
      refine ⟨fun hp => ?_, trivial⟩
      cases hlate : i.late with
      | true => exact hprogress
      | false => exact hp

theorem triple_ofExcept {r : Result α} {P : Vault W → Prop} :
    CallTriple C len old new h₀ P (ofExcept r) fun a v => r = .ok a ∧ P v := by
  refine .ofExcept fun v hv => ?_
  cases r with
  | ok a => exact ⟨rfl, hv⟩
  | error e => trivial

theorem triple_bail {text : String} {P : Vault W → Prop} {Q : α → Vault W → Prop} :
    CallTriple C len old new h₀ P (bail text) Q :=
  .throw fun _ _ => trivial

end Triples

theorem triple_rewriteSlots {dek : ByteArr 32} (hadmits : Admits C len old new dek h) :
    CallTriple C len old new h (At len h []) (rewriteSlots C h dek new)
      fun _ => Finished C len old new h := by
  unfold rewriteSlots
  refine triple_ofExcept.bind fun generation => .assume fun hgen => ?_
  refine triple_random.bind fun r => triple_ofExcept.bind fun slot => .assume fun hslot => ?_
  have hfirst : FirstWrite C len old new h (h.setSlot (inactiveSlot h) slot) :=
    ⟨dek, generation, r, slot, hadmits, ofOption_eq_ok.mp hgen, hslot, rfl⟩
  refine triple_check.bind fun _ => (triple_event _).bind fun _ => ?_
  refine (triple_writeHeader (.first hfirst)).bind fun _ => triple_random.bind fun r' => ?_
  have hsecond : SecondWrite h (h.setSlot (inactiveSlot h) slot)
      ((h.setSlot (inactiveSlot h) slot).setSlot (inactiveSlot h).other
        (KeySlot.randomDisabled r')) := ⟨r', rfl⟩
  refine (triple_writeHeader (.second hfirst hsecond)).conseq (fun _ hv => hv) ?_ fun _ _ he => he
  exact fun _ v hv => ⟨_, _, hfirst, hsecond, hv.writes, hv.header⟩

theorem triple_wipeForDuress (hduress : unlock C h old = .ok .duress) :
    CallTriple C len old new h (At len h []) (wipeForDuress h) fun _ _ => True := by
  refine triple_random.bind fun r₀ => triple_random.bind fun r₁ => triple_openFile.bind
    fun _ => ?_
  exact (triple_writeHeader (.wiped hduress)).conseq (fun _ hv => hv) (fun _ _ _ => trivial)
    fun _ _ he => he

/-- The duress password wipes the slots and fails. -/
theorem triple_currentDek {found : UnlockResult} (hfound : unlock C h old = .ok found) :
    CallTriple C len old new h (At len h []) (currentDek h found)
      fun dek v => unlock C h old = .ok (.unlocked dek) ∧ At len h [] v := by
  cases found with
  | unlocked dek => exact .pure fun v hv => ⟨hfound, hv⟩
  | failed => exact triple_bail
  | duress =>
      exact triple_check.bind fun _ => (triple_event _).bind fun _ =>
        (triple_wipeForDuress hfound).bind fun _ => triple_bail

/-- **A call follows the course of `Progress`, to its end if it succeeds.** -/
theorem triple_changePasswordInner :
    CallTriple C len old new h (At len h []) (changePasswordInner C old new)
      fun _ => Finished C len old new h := by
  unfold changePasswordInner
  refine triple_check.bind fun _ => triple_openFile.bind fun _ => triple_readHeader.bind ?_
  refine fun header => .assume ?_
  rintro ⟨rfl, hvalid⟩
  refine (triple_event _).bind fun _ => triple_ofExcept.bind fun found => .assume fun hfound => ?_
  refine (triple_ofExcept (r := Result.rejectIf _ _)).bind fun _ => .assume fun hduress => ?_
  refine triple_check.bind fun _ => triple_ofExcept.bind fun found' => .assume fun hfound' => ?_
  refine (triple_currentDek hfound').bind fun dek => .assume fun hdek => ?_
  exact triple_rewriteSlots ⟨hvalid, ⟨found, hfound, rejectIf_eq_ok.mp hduress⟩, hdek⟩

/-! ## Calls -/

/-- A call of `change_password`, with the steps it takes and the cancellations
between them. The steps may end before the program does. -/
structure Call (W : Type) where
  oldPassword : String
  newPassword : String
  labels : List (Label (VaultInput W) Unit)

/-- What is left of the call, and the container, after its steps. -/
def Call.run (C : Crypto Key W) (fileLen : UInt64) (h : Header W) (c : Call W) :
    Option (Task (Vault W) (VaultInput W) Error × Vault W) :=
  CipherFS.run (interleave Vault.cancel)
    ((changePasswordInner C c.oldPassword c.newPassword).task, .start h fileLen) c.labels

/-- Wherever a program that keeps to a course stops, it has followed it. -/
theorem CallTriple.run_spec {m : VaultProg W Unit} {Q : Vault W → Prop}
    {ls : List (Label (VaultInput W) Unit)} {t : Task (Vault W) (VaultInput W) Error} {v : Vault W}
    (hm : CallTriple C len old new h (At len h []) m fun _ => Q) (hQ : othersCancel.Stable Q)
    (hrun : CipherFS.run (interleave Vault.cancel) (m.task, .start h len) ls = some (t, v)) :
    Progress C len old new h v.writes v.header ∧ (t = .done → Q v) := by
  have hsafe := hm.safe hQ (fun _ _ _ _ _ => trivial)
    (show At len h [] (.start h len) from ⟨rfl, rfl, rfl⟩)
  have hkept : Kept othersCancel (keepsProgress C len old new h) fun v =>
      Progress C len old new h v.writes v.header := by
    refine ⟨fun u u' hp hR => ?_, fun u u' hp hG => hG hp⟩
    rwa [hR.header, hR.writes]
  have hcancel : ∀ (u : Vault W) a u', True → u.cancel a = some u' → othersCancel.rel u u' := by
    intro u a u' _ hu
    cases hu
    exact ⟨rfl, rfl, rfl⟩
  obtain ⟨hend, hp⟩ := hsafe.run hcancel hkept .unchanged (fun l _ => l.uses_true) hrun
  refine ⟨hp, ?_⟩
  rintro rfl
  exact hend.of_done

/-- Wherever a call stops, it has followed that course. -/
theorem Call.run_spec {c : Call W} {t : Task (Vault W) (VaultInput W) Error} {v : Vault W}
    (hrun : c.run C len h = some (t, v)) :
    Progress C len c.oldPassword c.newPassword h v.writes v.header ∧
      (t = .done → Finished C len c.oldPassword c.newPassword h v) := by
  refine CallTriple.run_spec triple_changePasswordInner ?_ hrun
  rintro u u' ⟨h₁, h₂, hf, hs, hws, hh⟩ hR
  exact ⟨h₁, h₂, hf, hs, hR.writes.trans hws, hR.header.trans hh⟩

end CipherFS.V2
