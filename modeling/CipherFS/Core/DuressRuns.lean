import CipherFS.Core.PasswordRuns
import CipherFS.Core.V2.Open

/-!
# After the duress password

A container that was packed with a duress password goes through `open` and
`change_password`, with any passwords and stopped anywhere. The duress password
never opens a keyslot, and once it has wiped the keyslots nothing opens one.
-/

namespace CipherFS.V2

open Result VaultProg Prog

variable {Key W : Type} {C : Crypto Key W} {d : Option String} {dek : ByteArr 32}
  {h h' h₁ h₂ : Header W} {old new p : String} {len : UInt64}

/-! ## Accesses -/

inductive Operation where
  | open (password : String)
  | changePassword (oldPassword newPassword : String)

/-- The end of `open`: the index is read and decrypted, and nothing is written. -/
def readIndex : VaultProg W Unit :=
  Prog.call fun i v => (i.fault.elim (.ok ()) Result.ioError, v)

def Operation.program (C : Crypto Key W) : Operation → VaultProg W Unit
  | .open password => openContainer C (fun _ _ => readIndex) password
  | .changePassword old new => changePasswordInner C old new

/-- The password that is to unlock the container. -/
def Operation.password : Operation → String
  | .open password => password
  | .changePassword old _ => old

/-- The password that a course of `Progress` is for; `open` makes no slot. -/
def Operation.target : Operation → String
  | .open password => password
  | .changePassword _ new => new

/-- An operation, with the steps it takes and the cancellations between them. The
steps may end before the operation does. -/
structure Access (W : Type) where
  operation : Operation
  labels : List (Label (VaultInput W) Unit)

/-- What is left of the operation, and the container, after its steps. -/
def Access.run (C : Crypto Key W) (fileLen : UInt64) (h : Header W) (a : Access W) :
    Option (Task (Vault W) (VaultInput W) Error × Vault W) :=
  CipherFS.run (interleave Vault.cancel) ((a.operation.program C).task, .start h fileLen) a.labels

/-- The stored header after an access. -/
def Access.step (C : Crypto Key W) (fileLen : UInt64) (h : Header W) (a : Access W) :
    Option (Header W) :=
  (a.run C fileLen h).map fun r => r.2.header

/-! ## Every access keeps the slots in order -/

/-- `open` writes the header only to wipe the slots. -/
theorem triple_openContainer :
    CallTriple C len p new h (At len h []) (openContainer C (fun _ _ => readIndex) p)
      fun _ _ => True := by
  unfold openContainer openHeader
  refine (triple_openFile.bind fun _ => triple_readHeader).bind fun header => .assume ?_
  rintro ⟨rfl, -⟩
  refine triple_ofExcept.bind fun found => .assume fun hfound => ?_
  have hindex : CallTriple C len p new header (At len header []) (readIndex : VaultProg W Unit)
      fun _ _ => True :=
    (triple_skip fun _ v => othersCancel.refl v).conseq (fun _ hv => hv) (fun _ _ _ => trivial)
      fun _ _ he => he
  cases found with
  | unlocked dek => exact hindex
  | failed => exact triple_bail.bind fun _ => hindex
  | duress =>
      exact ((triple_wipeForDuress hfound).bind fun _ => triple_bail).bind fun _ => hindex

/-- Wherever an access stops, it has followed the course of a password change. -/
theorem Access.run_spec {a : Access W} {t : Task (Vault W) (VaultInput W) Error} {v : Vault W}
    (hrun : a.run C len h = some (t, v)) :
    Progress C len a.operation.password a.operation.target h v.writes v.header := by
  obtain ⟨operation, labels⟩ := a
  cases operation with
  | «open» password =>
      exact (CallTriple.run_spec triple_openContainer (fun _ _ _ _ => trivial) hrun).1
  | changePassword old new => exact (Call.run_spec (c := ⟨old, new, labels⟩) hrun).1

/-- The slots are wiped. -/
def Wiped (h : Header W) : Prop := ∀ i, (h.slot i).generation = 0

theorem wiped_wipedHeader (h : Header W) (r₀ r₁ : SlotRandom W) : Wiped (wipedHeader h r₀ r₁) := by
  intro i
  cases i <;> rfl

theorem SlotsInOrder.wipedHeader (io : SlotsInOrder C d dek h) (r₀ r₁ : SlotRandom W) :
    SlotsInOrder C d dek (wipedHeader h r₀ r₁) where
  accepted :=
    { io.accepted with
      slots := by
        intro s hs hgen
        obtain ⟨i, rfl⟩ := Header.mem_slots.mp hs
        rw [wiped_wipedHeader h r₀ r₁ i] at hgen
        exact absurd hgen (by decide) }
  duress := io.duress
  slots := by
    intro i hgen
    rw [wiped_wipedHeader h r₀ r₁ i] at hgen
    exact absurd hgen (by decide)

theorem Progress.inOrder (hC : C.Ideal) (io : SlotsInOrder C d dek h) {ws : List (Header W)}
    (hp : Progress C len old new h ws h') : SlotsInOrder C d dek h' ∧ SlotsOnly h h' := by
  have hfirst : ∀ {h₁}, FirstWrite C len old new h h₁ →
      SlotsInOrder C d dek h₁ ∧ SlotsOnly h h₁ := by
    intro h₁ hfirst
    obtain ⟨slot, rfl, -, -, hopen, hne⟩ := hfirst.slot_opens hC io
    exact ⟨io.setSlot fun _ => ⟨new, hopen, hne⟩, SlotsOnly.refl.setSlot _ _⟩
  cases hp with
  | unchanged => exact ⟨io, .refl⟩
  | first hf => exact hfirst hf
  | second hf hs =>
      obtain ⟨r, rfl⟩ := hs
      obtain ⟨io₁, hsame⟩ := hfirst hf
      exact ⟨io₁.setSlot fun hon => absurd hon (by
        rw [show (KeySlot.randomDisabled r).generation = 0 from rfl]
        decide), hsame.setSlot _ _⟩
  | wiped _ => exact ⟨io.wipedHeader _ _, _, _, rfl⟩

theorem inOrder_of_run (hC : C.Ideal) {accesses : List (Access W)}
    (io : SlotsInOrder C d dek h) (hrun : CipherFS.run (Access.step C len) h accesses = some h') :
    SlotsInOrder C d dek h' ∧ SlotsOnly h h' := by
  refine run_inv (I := fun m => SlotsInOrder C d dek m ∧ SlotsOnly h m) ?_ hrun ⟨io, .refl⟩
  rintro m a m' _ ⟨hio, hsame⟩ hstep
  obtain ⟨⟨t, v⟩, hrun, rfl⟩ := Option.map_eq_some_iff.mp hstep
  obtain ⟨hio', hsame'⟩ := (Access.run_spec hrun).inOrder hC hio
  exact ⟨hio', hsame.trans hsame'⟩

/-! ## Wiped slots stay wiped -/

theorem Wiped.not_unlocked (hC : C.Ideal) (io : SlotsInOrder C d dek h) (hw : Wiped h)
    {dek' : ByteArr 32} : unlock C h p ≠ .ok (.unlocked dek') := by
  intro hunlock
  obtain ⟨-, i, hgen, -⟩ := (io.unlock_eq_unlocked hC).mp hunlock
  rw [hw i] at hgen
  exact absurd hgen (by decide)

theorem Wiped.not_unlocksSlot (hw : Wiped h) : ¬UnlocksSlot C h p := by
  rintro ⟨s, hs, -⟩
  obtain ⟨hmem, hgen⟩ := mem_candidates.mp hs
  obtain ⟨i, rfl⟩ := Header.mem_slots.mp hmem
  rw [hw i] at hgen
  exact absurd hgen (by decide)

/-- No password takes a change past its check, so all that can be written is
another wipe. -/
theorem Progress.wiped_stays (hC : C.Ideal) (io : SlotsInOrder C d dek h) (hw : Wiped h)
    {ws : List (Header W)} (hp : Progress C len old new h ws h') : Wiped h' := by
  have hnone : ∀ {h₁}, ¬FirstWrite C len old new h h₁ := by
    rintro h₁ ⟨dek', -, -, -, hadmits, -⟩
    exact hw.not_unlocked hC io hadmits.unlocked
  cases hp with
  | unchanged => exact hw
  | first hf => exact absurd hf hnone
  | second hf _ => exact absurd hf hnone
  | wiped _ => exact wiped_wipedHeader _ _ _

/-- An access with the duress password writes nothing but the wipe. -/
theorem Progress.wiped_of_duress (hC : C.Ideal) (io : SlotsInOrder C d dek h) (hd : d = some old)
    {ws : List (Header W)} (hp : Progress C len old new h ws h') (hws : ws ≠ []) : Wiped h' := by
  have hnone : ∀ {h₁}, ¬FirstWrite C len old new h h₁ := by
    rintro h₁ ⟨dek', -, -, -, hadmits, -⟩
    have hunlock := hadmits.unlocked
    rw [io.unlock_duress hC hd] at hunlock
    cases hunlock
  cases hp with
  | unchanged => exact absurd rfl hws
  | first hf => exact absurd hf hnone
  | second hf _ => exact absurd hf hnone
  | wiped _ => exact wiped_wipedHeader _ _ _

theorem wiped_of_run (hC : C.Ideal) {accesses : List (Access W)} (io : SlotsInOrder C d dek h)
    (hw : Wiped h) (hrun : CipherFS.run (Access.step C len) h accesses = some h') : Wiped h' := by
  refine (run_inv (I := fun m => SlotsInOrder C d dek m ∧ Wiped m) ?_ hrun ⟨io, hw⟩).2
  rintro m a m' _ ⟨hio, hm⟩ hstep
  obtain ⟨⟨t, v⟩, hrun, rfl⟩ := Option.map_eq_some_iff.mp hstep
  have hp := Access.run_spec hrun
  exact ⟨(hp.inOrder hC hio).1, hp.wiped_stays hC hio hm⟩

/-! ## The duress password wipes the slots -/

/-- The password is tried: a new password has been found not to be the duress one. -/
def Operation.Reaches (C : Crypto Key W) (h : Header W) : Operation → Prop
  | .open _ => True
  | .changePassword _ new => ∃ found, unlock C h new = .ok found ∧ found ≠ .duress

/-- Only a password change looks for a cancellation. -/
def Operation.Cancellable : Operation → Prop
  | .open _ => False
  | .changePassword _ _ => True

/-- The triples of an operation without faults that ends in a wipe, or cancelled
if it can be. -/
abbrev WipeTriple {α : Type} (cancellable : Prop) (P : Vault W → Prop) (m : VaultProg W α)
    (Q : α → Vault W → Prop) : Prop :=
  Triple (fun i => i.fault = none) othersCancel (fun _ _ => True) P m Q
    fun e v => v.writes ≠ [] ∨ (cancellable ∧ e.cause = .cancelled)

section WipeTriples

variable {α : Type} {c : Prop}

theorem wipeTriple_granted {f : VaultInput W → Vault W → Except Error α × Vault W}
    {Q : α → Prop} (hf : ∀ i v, i.fault = none → At len h [] v →
      (∃ a, (f i v).1 = .ok a ∧ Q a) ∧ At len h [] (f i v).2) :
    WipeTriple c (At len h []) (call f) fun a v => Q a ∧ At len h [] v := by
  refine .call stable_at fun i v hi hv => ⟨trivial, ?_⟩
  obtain ⟨⟨a, ha, hq⟩, hat⟩ := hf i v hi hv
  rw [ha]
  exact ⟨hq, hat⟩

theorem wipeTriple_openFile :
    WipeTriple c (At len h []) (openFile : VaultProg W Unit) fun _ => At len h [] :=
  (wipeTriple_granted (Q := fun _ => True) fun i v hi hv => ⟨⟨(), by rw [hi]; rfl, trivial⟩, hv⟩).conseq
    (fun _ hv => hv) (fun _ _ hv => hv.2) fun _ _ he => he

theorem wipeTriple_readHeader (hvalid : validateHeaderBasic h (some len) = .ok ()) :
    WipeTriple c (At len h []) VaultProg.readHeader fun a v => a = h ∧ At len h [] v := by
  refine wipeTriple_granted fun i v hi hv => ⟨⟨h, ?_, rfl⟩, hv⟩
  rw [hi, hv.header, hv.fileLen]
  simp only [hvalid]
  rfl

theorem wipeTriple_check (hc : c) :
    WipeTriple c (At len h []) (check : VaultProg W Unit) fun _ => At len h [] := by
  refine .call stable_at fun i v _ hv => ⟨trivial, ?_⟩
  cases hcancelled : (Controlled.control v).cancelled with
  | true => exact .inr ⟨hc, rfl⟩
  | false => exact hv

theorem wipeTriple_event (e : OperationEvent) :
    WipeTriple c (At len h []) (event e : VaultProg W Unit) fun _ => At len h [] :=
  .call stable_at fun _ _ _ hv => ⟨trivial, hv.1, hv.2, hv.3⟩

theorem wipeTriple_wipeForDuress :
    WipeTriple c (At len h []) (wipeForDuress h) fun _ v => v.writes ≠ [] := by
  have hrandom : WipeTriple c (At len h []) (random : VaultProg W (SlotRandom W))
      fun _ => At len h [] := .call stable_at fun _ _ _ hv => ⟨trivial, hv⟩
  refine hrandom.bind fun r₀ => hrandom.bind fun r₁ => wipeTriple_openFile.bind fun _ => ?_
  refine .call stable_at fun i v hi _ => ⟨trivial, ?_⟩
  rw [hi]
  exact List.concat_ne_nil _ _

theorem wipeTriple_refuse {β : Type} {m : VaultProg W Unit} {f : α → VaultProg W β}
    {P : Vault W → Prop} {Q : β → Vault W → Prop} {text : String}
    (hm : WipeTriple c P m fun _ v => v.writes ≠ []) :
    WipeTriple c P ((do m; bail text) >>= f) Q :=
  Triple.bind (Q := fun _ _ => False) (hm.bind fun _ => .throw fun _ hv => .inl hv) fun _ =>
    .unreachable fun _ hv => hv

end WipeTriples

/-- Given the duress password, an operation without I/O errors comes to its end
only after the wipe, unless it is a password change that is cancelled. -/
theorem Operation.wipes {op : Operation} (hvalid : validateHeaderBasic h (some len) = .ok ())
    (hreach : op.Reaches C h) (hduress : unlock C h op.password = .ok .duress) :
    WipeTriple op.Cancellable (At len h []) (op.program C) fun _ v => v.writes ≠ [] := by
  cases op with
  | «open» password =>
      refine (wipeTriple_openFile.bind fun _ => wipeTriple_readHeader hvalid).bind fun header => ?_
      refine .assume ?_
      rintro rfl
      rw [show unlock C header password = .ok .duress from hduress]
      exact wipeTriple_refuse wipeTriple_wipeForDuress
  | changePassword old new =>
      obtain ⟨found, hfound, hne⟩ := hreach
      refine (wipeTriple_check trivial).bind fun _ => wipeTriple_openFile.bind fun _ => ?_
      refine (wipeTriple_readHeader hvalid).bind fun header => .assume ?_
      rintro rfl
      refine (wipeTriple_event _).bind fun _ => ?_
      rw [show unlock C header old = .ok .duress from hduress, hfound]
      have hpass : WipeTriple (Operation.changePassword old new).Cancellable (At len header [])
          (rejectIf (found = .duress)
            "New master password must differ from the configured Duress password")
          fun _ => At len header [] := by
        have hok : Result.rejectIf (found = .duress)
            "New master password must differ from the configured Duress password" = .ok () :=
          rejectIf_eq_ok.mpr hne
        rw [Prog.rejectIf, hok]
        exact .pure fun _ hv => hv
      refine hpass.bind fun _ => (wipeTriple_check trivial).bind fun _ => ?_
      exact wipeTriple_refuse <| (wipeTriple_check trivial).bind fun _ =>
        (wipeTriple_event _).bind fun _ => wipeTriple_wipeForDuress

theorem Access.wipes {a : Access W} {t : Task (Vault W) (VaultInput W) Error} {v : Vault W}
    (hvalid : validateHeaderBasic h (some len) = .ok ()) (hreach : a.operation.Reaches C h)
    (hduress : unlock C h a.operation.password = .ok .duress)
    (hfaults : ∀ l ∈ a.labels, l.Uses (fun i => i.fault = none) fun _ => True)
    (hrun : a.run C len h = some (t, v)) (hend : t.ended = true) :
    v.writes ≠ [] ∨ (a.operation.Cancellable ∧ ∃ e, t = .fail e ∧ e.cause = .cancelled) := by
  have hwritten : othersCancel.Stable fun u : Vault W => u.writes ≠ [] :=
    fun u u' hu hR heq => hu (hR.writes.symm.trans heq)
  have hsafe := (Operation.wipes hvalid hreach hduress).safe hwritten
    (fun _ u u' hu hR => hu.imp_left fun hu => hwritten u u' hu hR)
    (show At len h [] (.start h len) from ⟨rfl, rfl, rfl⟩)
  have hcancel : ∀ (u : Vault W) a u', True → u.cancel a = some u' → othersCancel.rel u u' := by
    intro u a u' _ hu
    cases hu
    exact ⟨rfl, rfl, rfl⟩
  have hkept : Kept othersCancel (fun _ _ : Vault W => True) fun _ => True :=
    ⟨fun _ _ _ _ => trivial, fun _ _ _ _ => trivial⟩
  obtain ⟨hsafe, -⟩ := hsafe.run hcancel hkept trivial hfaults hrun
  rcases Task.ended_iff.mp hend with rfl | ⟨e, rfl⟩
  · exact .inl hsafe.of_done
  · exact hsafe.of_fail.imp_right fun ⟨hc, he⟩ => ⟨hc, e, rfl, he⟩

theorem SlotsOnly.validate (hsame : SlotsOnly h h') (hacc : HeaderAccepted h')
    (hvalid : validateHeaderBasic h (some len) = .ok ()) :
    validateHeaderBasic h' (some len) = .ok () := by
  obtain ⟨s₀, s₁, rfl⟩ := hsame
  exact validateHeaderBasic_eq_ok.mpr ⟨hacc, (validateHeaderBasic_eq_ok.mp hvalid).2⟩

/-- **The duress password is kept apart, and its wipe is final.** Whatever
accesses a packed container has gone through, no password that opens a keyslot is
recognised as the duress password. An access that is given the duress password
wipes the keyslots, unless it is a password change that is cancelled before or
there is an I/O error; and once it has written the wipe, no access brings back a
password that opens a keyslot, takes the duress password away or changes the rest
of the header. -/
theorem duress_separate_and_final (hC : C.Ideal) {password duress : String}
    {params : Argon2Params} {indexSize dataSize entryCount : UInt64} {r : Pack.HeaderRandom W}
    (hpack : Pack.packHeader C password (some duress) params indexSize dataSize entryCount r =
      .ok h)
    (hvalid : validateHeaderBasic h (some len) = .ok ()) {accesses : List (Access W)}
    (hrun : CipherFS.run (Access.step C len) h accesses = some h') :
    (∀ p, UnlocksSlot C h' p → ¬IsDuress C h' p) ∧
    ∀ (a : Access W) t v, a.operation.password = duress → a.run C len h' = some (t, v) →
      (a.operation.Reaches C h' → (∀ l ∈ a.labels, l.Uses (fun i => i.fault = none) fun _ => True) →
        t.ended = true →
        v.writes ≠ [] ∨ (a.operation.Cancellable ∧ ∃ e, t = .fail e ∧ e.cause = .cancelled)) ∧
      (v.writes ≠ [] → ∀ more h'', CipherFS.run (Access.step C len) v.header more = some h'' →
        (∀ p, ¬UnlocksSlot C h'' p) ∧ unlock C h'' duress = .ok .duress ∧ SlotsOnly h h'') := by
  obtain ⟨io, hsame⟩ :=
    inOrder_of_run hC (Pack.slotState_packHeader hpack hvalid).inOrder hrun
  refine ⟨fun p => io.not_isDuress_of_unlocksSlot hC, fun a t v hd ha => ⟨?_, ?_⟩⟩
  · intro hreach hfaults hend
    refine Access.wipes (hsame.validate io.accepted hvalid) hreach ?_ hfaults ha hend
    exact io.unlock_duress hC (congrArg some hd.symm)
  · intro hws more h'' hmore
    have hp := Access.run_spec ha
    obtain ⟨io', hsame'⟩ := hp.inOrder hC io
    have hw := hp.wiped_of_duress hC io (congrArg some hd.symm) hws
    obtain ⟨io'', hsame''⟩ := inOrder_of_run hC io' hmore
    exact ⟨fun p => (wiped_of_run hC io' hw hmore).not_unlocksSlot, io''.unlock_duress hC rfl,
      (hsame.trans hsame').trans hsame''⟩

/-- A password change with the duress password as the current one. -/
def duressAccess (cancelled : Bool) : Access (IdealKey × ByteArr 12 × Bytes × Bytes) :=
  let granted := Label.task (.here ⟨sampleSlotRandom, none, false⟩)
  ⟨.changePassword "duress" "new",
    List.replicate 5 granted ++ (if cancelled then [.env ()] else []) ++
      List.replicate (if cancelled then 1 else 6) granted⟩

theorem duress_separate_and_final_sample : ∃ t v,
    (duressAccess false).run idealCrypto 4112 duressHeader = some (t, v) ∧
      unlock idealCrypto v.header "duress" = .ok .duress ∧
      ∀ p, ¬UnlocksSlot idealCrypto v.header p := by
  have hpack : Pack.packHeader idealCrypto "old" (some "duress") ⟨8192, 1, 1⟩ 16 0 1
      sampleHeaderRandom = .ok duressHeader := rfl
  have hvalid : validateHeaderBasic duressHeader (some 4112) = .ok () := by decide +kernel
  have hany : ((duressAccess false).run idealCrypto 4112 duressHeader).any
      (fun r => !r.2.writes.isEmpty) = true := by decide +kernel
  obtain ⟨⟨t, v⟩, hrun, hwrites⟩ := (Option.any_eq_true _ _).mp hany
  have hnow : CipherFS.run (Access.step idealCrypto 4112) duressHeader [] = some duressHeader := rfl
  obtain ⟨hnone, hduress, -⟩ := ((duress_separate_and_final idealCrypto_ideal hpack hvalid
    hnow).2 _ t v rfl hrun).2 (by simpa using hwrites) [] _ rfl
  exact ⟨t, v, hrun, hduress, hnone⟩

/-- A change that is cancelled after the duress password was recognised wipes
nothing. -/
theorem cancelled_change_keeps_slots : ¬∀ (a : Access (IdealKey × ByteArr 12 × Bytes × Bytes)) t v,
    a.operation.password = "duress" → a.operation.Reaches idealCrypto duressHeader →
    a.run idealCrypto 4112 duressHeader = some (t, v) → t.ended = true →
    ∀ p, ¬UnlocksSlot idealCrypto v.header p := by
  intro hwipes
  have hany : ((duressAccess true).run idealCrypto 4112 duressHeader).any (fun r =>
      r.1.ended && decide (unlock idealCrypto r.2.header "old" =
        .ok (.unlocked sampleHeaderRandom.dek))) = true := by decide +kernel
  obtain ⟨⟨t, v⟩, hrun, hunlock⟩ := (Option.any_eq_true _ _).mp hany
  rw [Bool.and_eq_true, decide_eq_true_eq] at hunlock
  have hreach : unlock idealCrypto duressHeader "new" = .ok .failed := by decide +kernel
  exact hwipes (duressAccess true) t v rfl ⟨.failed, hreach, nofun⟩ hrun hunlock.1 "old"
    (unlocksSlot_of_unlock hunlock.2)

end CipherFS.V2
