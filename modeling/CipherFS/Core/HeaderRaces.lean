import CipherFS.Core.Deniability
import CipherFS.Core.V2.HalfChanged
import CipherFS.Framework.Trails

/-!
# Two calls on one container

Nothing locks the header: two processes that open the same container or change
its password read and write it as their steps come. Each works on the header it
read once.
-/

namespace CipherFS.V2

open Result VaultProg Prog

variable {Key W α : Type} {C : Crypto Key W} {h h₁ h₂ c c' : Header W} {len : UInt64}
  {old new : String}

/-- The stored header as the cell that calls share. -/
def storedHeader (W : Type) : Shared (Vault W) (Header W) where
  get := Vault.header
  set v h := { v with header := h }
  written := Vault.writes
  get_set _ _ := rfl
  set_get _ := rfl
  set_set _ _ _ := rfl
  written_set _ _ := rfl

theorem envPrivate_cancel : Race.EnvPrivate (storedHeader W) Vault.cancel := by
  refine fun a v => ⟨fun h => rfl, fun h => rfl, ?_⟩
  rintro v' ⟨⟩
  exact ⟨rfl, rfl⟩

/-! ## The steps of a call -/

theorem private_check (i : VaultInput W) (v : Vault W) :
    PrivateCall (storedHeader W) (fun (_ : VaultInput W) (s : Vault W) =>
      (if (Controlled.control s).cancelled then (.error ⟨.cancelled, []⟩ : Result Unit)
        else .ok (), s)) i v :=
  ⟨fun _ => rfl, rfl, rfl⟩

theorem oblivious_check : Oblivious (storedHeader W) (check : VaultProg W Unit) :=
  .call fun i v => .inl (private_check i v)

theorem oblivious_event (e : OperationEvent) :
    Oblivious (storedHeader W) (event e : VaultProg W Unit) :=
  .call fun _ _ => .inl ⟨fun _ => rfl, rfl, rfl⟩

theorem private_openFile (i : VaultInput W) (v : Vault W) :
    PrivateCall (storedHeader W) (fun (i : VaultInput W) (v : Vault W) =>
      (i.fault.elim (.ok ()) Result.ioError, v)) i v :=
  ⟨fun _ => rfl, rfl, rfl⟩

theorem oblivious_openFile : Oblivious (storedHeader W) (openFile : VaultProg W Unit) :=
  .call fun i v => .inl (private_openFile i v)

theorem oblivious_random : Oblivious (storedHeader W) (random : VaultProg W (SlotRandom W)) :=
  .call fun _ _ => .inl ⟨fun _ => rfl, rfl, rfl⟩

/-- A write has its effect whatever is stored, or it has none. -/
theorem oblivious_writeHeader (header : Header W) :
    Oblivious (storedHeader W) (writeHeader header) := by
  refine .call fun i v => ?_
  obtain ⟨random, fault, late⟩ := i
  cases fault with
  | none => exact .inr ⟨fun _ => rfl, rfl⟩
  | some text =>
      cases late with
      | true => exact .inr ⟨fun _ => rfl, rfl⟩
      | false => exact .inl ⟨fun _ => rfl, rfl, rfl⟩

theorem oblivious_wipeForDuress (header : Header W) :
    Oblivious (storedHeader W) (wipeForDuress header) :=
  oblivious_random.bind fun _ => oblivious_random.bind fun _ => oblivious_openFile.bind
    fun _ => oblivious_writeHeader _

theorem oblivious_refuse {m : VaultProg W Unit} {text : String}
    (hm : Oblivious (storedHeader W) m) :
    Oblivious (storedHeader W) (do m; bail text : VaultProg W α) :=
  hm.bind fun _ => .throw _

theorem oblivious_openDek (header : Header W) (found : UnlockResult) :
    Oblivious (storedHeader W) (openDek header found) := by
  cases found with
  | unlocked dek => exact .pure dek
  | duress => exact oblivious_refuse (oblivious_wipeForDuress header)
  | failed => exact .throw _

theorem oblivious_currentDek (header : Header W) (found : UnlockResult) :
    Oblivious (storedHeader W) (currentDek header found) := by
  cases found with
  | unlocked dek => exact .pure dek
  | duress =>
      exact oblivious_check.bind fun _ => (oblivious_event _).bind fun _ =>
        oblivious_refuse (oblivious_wipeForDuress header)
  | failed => exact .throw _

theorem oblivious_rewriteSlots (header : Header W) (dek : ByteArr 32) (newPassword : String) :
    Oblivious (storedHeader W) (rewriteSlots C header dek newPassword) :=
  (Oblivious.ofExcept _).bind fun _ => oblivious_random.bind fun _ => (Oblivious.ofExcept _).bind
    fun _ => oblivious_check.bind fun _ => (oblivious_event _).bind fun _ =>
      (oblivious_writeHeader _).bind fun _ => oblivious_random.bind fun _ =>
        oblivious_writeHeader _

/-! ## The read of a call -/

/-- How many steps an operation takes before it reads the header. -/
def Operation.readsAt : Operation → Nat
  | .open _ => 1
  | .changePassword _ _ => 2

theorem keeps_readHeader (i : VaultInput W) (v : Vault W) : (storedHeader W).Keeps v
    ((match i.fault with
      | some text => ((Result.ioError text).context "Unable to read v2 header" : Result (Header W))
      | none => do
        validateHeaderBasic v.header (some v.fileLen)
        .ok v.header, v) : Result (Header W) × Vault W).2 :=
  ⟨rfl, rfl⟩

/-- **A call reads the header once, and never looks at it again.** -/
theorem Operation.reads (op : Operation) :
    (op.program C).task.ReadsAt (storedHeader W) op.readsAt := by
  have hend : ∀ e : Error, (Task.fail e : Task (Vault W) (VaultInput W) Error).Oblivious
      (storedHeader W) := fun _ => trivial
  cases op with
  | «open» password =>
      refine readsAt_call_succ private_openFile (fun _ => ?_) fun _ => trivial
      refine readsAt_call_zero keeps_readHeader (fun header => ?_) hend
      have hrest : Oblivious (storedHeader W) (do
          let found ← ofExcept (unlock C header password)
          let _ ← openDek header found
          readIndex) :=
        (Oblivious.ofExcept _).bind fun found => (oblivious_openDek header found).bind fun _ =>
          oblivious_openFile
      exact hrest _ _ (fun _ => trivial) hend
  | changePassword old new =>
      refine readsAt_call_succ private_check (fun _ => ?_) fun _ => trivial
      refine readsAt_call_succ private_openFile (fun _ => ?_) fun _ => trivial
      refine readsAt_call_zero keeps_readHeader (fun header => ?_) hend
      have hrest : Oblivious (storedHeader W) (do
          event (.phaseStarted .keyDerivation)
          let found ← ofExcept (unlock C header new)
          rejectIf (found = .duress)
            "New master password must differ from the configured Duress password"
          check
          let found ← ofExcept (unlock C header old)
          let dek ← currentDek header found
          rewriteSlots C header dek new) :=
        (oblivious_event _).bind fun _ => (Oblivious.ofExcept _).bind fun _ =>
          (Oblivious.ofExcept _).bind fun _ => oblivious_check.bind fun _ =>
            (Oblivious.ofExcept _).bind fun found => (oblivious_currentDek header found).bind
              fun dek => oblivious_rewriteSlots header dek new
      exact hrest _ _ (fun _ => trivial) hend

/-! ## A call that reads between two writes -/

section Trails

variable {early : Prop}

theorem trails_check :
    Trails (storedHeader W) c c' early Eq (check : VaultProg W Unit) check :=
  .private private_check

theorem trails_event (e : OperationEvent) :
    Trails (storedHeader W) c c' early Eq (event e : VaultProg W Unit) (event e) :=
  .private fun _ _ => ⟨fun _ => rfl, rfl, rfl⟩

theorem trails_openFile :
    Trails (storedHeader W) c c' early Eq (openFile : VaultProg W Unit) openFile :=
  .private private_openFile

theorem trails_random :
    Trails (storedHeader W) c c' early Eq (random : VaultProg W (SlotRandom W)) random :=
  .private fun _ _ => ⟨fun _ => rfl, rfl, rfl⟩

/-- The two headers are read alike: they differ in their keyslots only. -/
theorem trails_readHeader (hsame : SlotsOnly c c') (hacc : HeaderAccepted c)
    (hacc' : HeaderAccepted c') : Trails (storedHeader W) c c' early (fun a b => a = c ∧ b = c')
      VaultProg.readHeader VaultProg.readHeader := by
  refine .call fun i v hv => .inr ⟨⟨rfl, rfl⟩, rfl, ?_⟩
  obtain ⟨header, fileLen, control, writes⟩ := v
  obtain rfl : header = c := hv
  obtain ⟨random, fault, late⟩ := i
  cases fault with
  | some text => exact .error
  | none =>
      show Answers early _ (do validateHeaderBasic header (some fileLen); .ok header)
        (do validateHeaderBasic c' (some fileLen); .ok c')
      cases hvalid : validateHeaderBasic header (some fileLen) with
      | ok u =>
          rw [hsame.validate hacc' hvalid]
          exact .ok ⟨rfl, rfl⟩
      | error e =>
          cases hvalid' : validateHeaderBasic c' (some fileLen) with
          | error e' => exact .error
          | ok u =>
              rw [hsame.symm.validate hacc hvalid'] at hvalid
              cases hvalid

/-- A write that fails leaves no trace, whatever it was to write. -/
theorem trails_writeHeader (header header' : Header W) :
    Trails (storedHeader W) c c' early Eq (writeHeader header) (writeHeader header') := by
  refine .call fun i v _ => ?_
  have hgrows : v.writes.length < (v.writes ++ [header]).length := by
    rw [List.length_append]
    exact Nat.lt_succ_self _
  obtain ⟨random, fault, late⟩ := i
  cases fault with
  | none => exact .inl hgrows
  | some text =>
      cases late with
      | true => exact .inl hgrows
      | false => exact .inr ⟨⟨rfl, rfl⟩, rfl, .error⟩

theorem trails_wipeForDuress (header header' : Header W) :
    Trails (storedHeader W) c c' early Eq (wipeForDuress header) (wipeForDuress header') :=
  trails_random.then fun _ => trails_random.then fun _ => trails_openFile.then fun _ =>
    trails_writeHeader _ _

theorem trails_openDek (header header' : Header W) (found : UnlockResult) :
    Trails (storedHeader W) c c' early Eq (openDek header found) (openDek header' found) := by
  cases found with
  | unlocked dek => exact .pure rfl
  | duress => exact (trails_wipeForDuress header header').then fun _ => .throw _ _
  | failed => exact .throw _ _

theorem trails_currentDek_duress {R : ByteArr 32 → ByteArr 32 → Prop} (header header' : Header W) :
    Trails (storedHeader W) c c' early R (currentDek header .duress)
      (currentDek header' .duress) :=
  trails_check.then fun _ => (trails_event _).then fun _ =>
    (trails_wipeForDuress header header').then fun _ => .throw _ _

/-- `open` on another header that answers the password alike. -/
theorem trails_open {p : String} (hsame : SlotsOnly c c') (hacc : HeaderAccepted c)
    (hacc' : HeaderAccepted c') (hunlock : unlock C c' p = unlock C c p) :
    Trails (storedHeader W) c c' early Eq (openContainer C (fun _ _ => readIndex) p)
      (openContainer C (fun _ _ => readIndex) p) := by
  refine (trails_openFile.then fun _ => trails_readHeader hsame hacc hacc').bind ?_
  rintro _ _ ⟨rfl, rfl⟩
  rw [hunlock]
  exact (Trails.ofExcept (.refl _)).then fun found => (trails_openDek _ _ found).then fun _ =>
    .private fun _ _ => ⟨fun _ => rfl, rfl, rfl⟩

/-- A change that begins between the writes makes the slot it would make after them. -/
theorem trails_rewriteSlots (hfirst : FirstWrite C len old new h h₁)
    (hsecond : SecondWrite h h₁ h₂) (dek : ByteArr 32) (newPassword : String) :
    Trails (storedHeader W) c c' early Eq (rewriteSlots C h₁ dek newPassword)
      (rewriteSlots C h₂ dek newPassword) := by
  obtain ⟨hinactive, hmax, hprevious⟩ := half_eq_after hfirst hsecond
  have hsame : SlotsOnly h₁ h₂ := by
    obtain ⟨r, rfl⟩ := hsecond
    exact SlotsOnly.refl.setSlot _ _
  unfold rewriteSlots
  rw [hinactive, hmax]
  dsimp only
  rw [hprevious]
  refine (Trails.ofExcept (.refl _)).then fun generation => trails_random.then fun r => ?_
  rw [makeKeySlot_congr hsame]
  exact (Trails.ofExcept (.refl _)).then fun slot => trails_check.then fun _ =>
    (trails_event _).then fun _ => (trails_writeHeader _ _).then fun _ =>
      trails_random.then fun _ => trails_writeHeader _ _

/-- The current password is answered alike, or it fails on the second header. -/
theorem trails_afterNewPassword {oldPassword newPassword : String}
    (hold : Answers True (fun a b => a = b ∨ b = .failed) (unlock C c oldPassword)
      (unlock C c' oldPassword))
    (hrewrite : ∀ dek, unlock C c oldPassword = .ok (.unlocked dek) →
      unlock C c' oldPassword = .ok (.unlocked dek) →
      Trails (storedHeader W) c c' True Eq (rewriteSlots C c dek newPassword)
        (rewriteSlots C c' dek newPassword)) :
    Trails (storedHeader W) c c' True Eq (afterNewPassword C oldPassword newPassword c)
      (afterNewPassword C oldPassword newPassword c') := by
  refine trails_check.then fun _ => ?_
  generalize unlock C c oldPassword = r at hold hrewrite ⊢
  generalize unlock C c' oldPassword = r' at hold hrewrite ⊢
  cases hold with
  | error => exact .throw _ _
  | early => exact .fails trivial _
  | ok hfound =>
      rename_i a b
      rcases hfound with rfl | rfl
      · cases a with
        | unlocked dek => exact hrewrite dek rfl rfl
        | duress =>
            show Trails _ _ _ _ _
              (currentDek c .duress >>= fun dek => rewriteSlots C c dek newPassword)
              (currentDek c' .duress >>= fun dek => rewriteSlots C c' dek newPassword)
            exact (trails_currentDek_duress (R := fun _ _ => False) c c').bind fun _ _ => False.elim
        | failed => exact .throw _ _
      · exact .fails trivial _

/-- `change_password` on another header that lets the new password pass, or fails
with it. -/
theorem trails_changePassword {oldPassword newPassword : String} (hsame : SlotsOnly c c')
    (hacc : HeaderAccepted c) (hacc' : HeaderAccepted c')
    (hnew : Answers True (fun a b => a = .duress → b = .duress) (unlock C c newPassword)
      (unlock C c' newPassword))
    (hafter : (∃ found, unlock C c newPassword = .ok found ∧ found ≠ .duress) →
      Trails (storedHeader W) c c' True Eq (afterNewPassword C oldPassword newPassword c)
        (afterNewPassword C oldPassword newPassword c')) :
    Trails (storedHeader W) c c' True Eq (changePasswordInner C oldPassword newPassword)
      (changePasswordInner C oldPassword newPassword) := by
  rw [changePasswordInner_eq_new]
  refine Trails.bind (R := fun a b => a = c ∧ b = c') ?_ ?_
  · refine trails_check.then fun _ => trails_openFile.then fun _ => ?_
    refine (trails_readHeader hsame hacc hacc').bind fun a b hab => ?_
    exact (trails_event _).then fun _ => .pure hab
  · rintro _ _ ⟨ha, hb⟩
    rw [ha, hb]
    generalize unlock C c newPassword = r at hnew hafter ⊢
    generalize unlock C c' newPassword = r' at hnew hafter ⊢
    cases hnew with
    | error => exact .throw _ _
    | early => exact .fails trivial _
    | ok hduress =>
        rename_i a b
        have hpass {x : UnlockResult} (hx : x ≠ .duress) : (rejectIf (x = .duress)
            "New master password must differ from the configured Duress password" :
            VaultProg W Unit) = pure () := by
          rw [Prog.rejectIf, rejectIf_eq_ok.mpr hx]
          rfl
        by_cases ha : a = .duress
        · obtain rfl := ha
          obtain rfl := hduress rfl
          exact .throw _ _
        · by_cases hb : b = .duress
          · obtain rfl := hb
            exact .fails trivial _
          · show Trails _ _ _ _ _
              (rejectIf (a = .duress) _ >>= fun _ => afterNewPassword C oldPassword newPassword c)
              (rejectIf (b = .duress) _ >>= fun _ => afterNewPassword C oldPassword newPassword c')
            rw [hpass ha, hpass hb]
            exact hafter ⟨a, rfl, ha⟩

/-- Three headers that differ in their keyslots only, as a change leaves one after
the other. -/
structure Between (h h₁ h₂ : Header W) : Prop where
  before : SlotsOnly h₁ h
  after : SlotsOnly h₁ h₂
  accepted : HeaderAccepted h
  accepted₁ : HeaderAccepted h₁
  accepted₂ : HeaderAccepted h₂

theorem between_of_writes (hfirst : FirstWrite C len old new h h₁) (hsecond : SecondWrite h h₁ h₂) :
    Between h h₁ h₂ := by
  obtain ⟨slot, rfl, hacc, hacc₁, -⟩ := hfirst.exists_slot
  obtain ⟨r, rfl⟩ := hsecond
  exact
    { before := (SlotsOnly.refl.setSlot _ _).symm
      after := SlotsOnly.refl.setSlot _ _
      accepted := hacc
      accepted₁ := hacc₁
      accepted₂ := hacc₁.setSlot fun hon => absurd hon (UInt64.lt_irrefl 0) }

/-- An `open` between the writes trails itself before them or after them. -/
theorem trails_open_between (hb : Between h h₁ h₂) {p : String} (hanswer : HalfAnswer C h h₁ h₂ p) :
    ∃ c', (c' = h ∨ c' = h₂) ∧ Trails (storedHeader W) h₁ c' early Eq
      (openContainer C (fun _ _ => readIndex) p) (openContainer C (fun _ _ => readIndex) p) := by
  cases hanswer with
  | after heq => exact ⟨h₂, .inr rfl, trails_open hb.after hb.accepted₁ hb.accepted₂ heq.symm⟩
  | refused he he' =>
      exact ⟨h, .inl rfl, trails_open hb.before hb.accepted₁ hb.accepted (he'.trans he.symm)⟩
  | opened ho ho' =>
      exact ⟨h, .inl rfl, trails_open hb.before hb.accepted₁ hb.accepted (ho'.trans ho.symm)⟩

/-- A change whose new password is answered with an error between the writes. -/
theorem trails_change_error (hb : Between h h₁ h₂) {x y : String} {e : Error}
    (hy : unlock C h₁ y = .error e) (hanswer : HalfAnswer C h h₁ h₂ y) :
    ∃ c', (c' = h ∨ c' = h₂) ∧ Trails (storedHeader W) h₁ c' True Eq
      (changePasswordInner C x y) (changePasswordInner C x y) := by
  have hnone : ¬∃ found, unlock C h₁ y = .ok found ∧ found ≠ .duress := by
    rintro ⟨found, hfound, -⟩
    rw [hy] at hfound
    cases hfound
  cases hanswer with
  | after heq =>
      refine ⟨h₂, .inr rfl, trails_changePassword hb.after hb.accepted₁ hb.accepted₂ ?_ hnone.elim⟩
      rw [← heq, hy]
      exact .error
  | refused _ he =>
      refine ⟨h, .inl rfl, trails_changePassword hb.before hb.accepted₁ hb.accepted ?_ hnone.elim⟩
      rw [hy, he]
      exact .error
  | opened ho =>
      rw [hy] at ho
      cases ho

/-- A new password that passes between the writes passes after them, or fails. -/
theorem answers_new_after {y : String} {a : UnlockResult} (hy : unlock C h₁ y = .ok a)
    (hanswer : HalfAnswer C h h₁ h₂ y) :
    Answers True (fun a b => a = .duress → b = .duress) (unlock C h₁ y) (unlock C h₂ y) := by
  cases hanswer with
  | after heq =>
      rw [← heq, hy]
      exact .ok id
  | refused he =>
      rw [hy] at he
      cases he
  | opened ho =>
      rw [ho]
      cases unlock C h₂ y with
      | error e => exact .early trivial
      | ok b => exact .ok (absurd · (by simp))

/-- A change whose new password passes between the writes. How its current password
is answered decides which header it trails on. -/
theorem trails_change_ok (hapart : KeyslotsApart C h) (hfirst : FirstWrite C len old new h h₁)
    (hsecond : SecondWrite h h₁ h₂) (hb : Between h h₁ h₂) {x y : String} {a : UnlockResult}
    (hy : unlock C h₁ y = .ok a) :
    ∃ c', (c' = h ∨ c' = h₂) ∧ Trails (storedHeader W) h₁ c' True Eq
      (changePasswordInner C x y) (changePasswordInner C x y) := by
  have hnew := answers_new_after hy (halfAnswer hapart hfirst hsecond y)
  by_cases hduress : a = .duress
  · refine ⟨h₂, .inr rfl, trails_changePassword hb.after hb.accepted₁ hb.accepted₂ hnew ?_⟩
    rintro ⟨found, hfound, hne⟩
    rw [hy] at hfound
    exact absurd ((Except.ok.inj hfound).symm.trans hduress) hne
  · cases halfAnswer hapart hfirst hsecond x with
    | after heq =>
        refine ⟨h₂, .inr rfl, trails_changePassword hb.after hb.accepted₁ hb.accepted₂ hnew fun _ =>
          trails_afterNewPassword ?_ fun dek _ _ => trails_rewriteSlots hfirst hsecond dek y⟩
        rw [← heq]
        cases unlock C h₁ x with
        | error e => exact .error
        | ok b => exact .ok (.inl rfl)
    | refused he he' =>
        refine ⟨h, .inl rfl, trails_changePassword hb.before hb.accepted₁ hb.accepted ?_ fun _ =>
          trails_afterNewPassword ?_ fun dek hdek _ => ?_⟩
        · rw [hy]
          cases unlock C h y with
          | error e => exact .early trivial
          | ok b => exact .ok (absurd · hduress)
        · rw [he, he']
          exact .error
        · rw [he] at hdek
          cases hdek
    | opened ho _ hslot hnone =>
        refine ⟨h₂, .inr rfl, trails_changePassword hb.after hb.accepted₁ hb.accepted₂ hnew fun _ =>
          trails_afterNewPassword ?_ fun dek _ hdek => absurd hdek (hnone dek)⟩
        rw [ho]
        cases hx : unlock C h₂ x with
        | error e => exact .early trivial
        | ok b =>
            cases b with
            | unlocked dek => exact absurd hx (hnone dek)
            | failed => exact .ok (.inr rfl)
            | duress =>
                have hd := (isDuress_congr hb.after).mp (isDuress_of_unlock hx)
                exact absurd ((isDuress_congr hb.before).mpr hd) (hapart.passwords x hslot)

/-- **A call that reads between the two writes of a change trails itself** on the
header before the change or on the one after it. -/
theorem Operation.trails (hapart : KeyslotsApart C h) (hfirst : FirstWrite C len old new h h₁)
    (hsecond : SecondWrite h h₁ h₂) (op : Operation) : ∃ c', (c' = h ∨ c' = h₂) ∧
      (op.program C).task.Trails (storedHeader W) h₁ c' op.Cancellable (op.program C).task := by
  have hb := between_of_writes hfirst hsecond
  cases op with
  | «open» p =>
      obtain ⟨c', hc', htrails⟩ := trails_open_between hb (halfAnswer hapart hfirst hsecond p)
      exact ⟨c', hc', htrails.task⟩
  | changePassword x y =>
      have hchange : ∃ c', (c' = h ∨ c' = h₂) ∧ Trails (storedHeader W) h₁ c' True Eq
          (changePasswordInner C x y) (changePasswordInner C x y) := by
        cases hy : unlock C h₁ y with
        | error e => exact trails_change_error hb hy (halfAnswer hapart hfirst hsecond y)
        | ok a => exact trails_change_ok hapart hfirst hsecond hb hy
      obtain ⟨c', hc', htrails⟩ := hchange
      exact ⟨c', hc', htrails.task⟩

end Trails

/-! ## Two calls at once -/

/-- Two calls at their start. -/
def raceStart (C : Crypto Key W) (fileLen : UInt64) (ops : Side → Operation) (h : Header W) :
    Race Side (Vault W) (VaultInput W) Error Unit (Header W) :=
  .start h (fun s => ((ops s).program C).task) fun _ => .start h fileLen

/-- A label of one of two calls. -/
def raceStep (ops : Side → Operation) :
    Race Side (Vault W) (VaultInput W) Error Unit (Header W) → Side × Label (VaultInput W) Unit →
      Option (Race Side (Vault W) (VaultInput W) Error Unit (Header W)) :=
  Race.step (storedHeader W) Vault.cancel fun s => (ops s).readsAt

/-- Only a change writes twice. -/
theorem Progress.of_two_writes {ws ws₁ ws₂ : List (Header W)} {g : Header W}
    (hp : Progress C len old new h ws g) (hws : ws = ws₁ ++ h₁ :: ws₂) (hne : ws₂ ≠ []) :
    FirstWrite C len old new h h₁ ∧ SecondWrite h h₁ g := by
  have hlen : ws.length = ws₁.length + ws₂.length + 1 := by
    rw [hws, List.length_append, List.length_cons, Nat.add_assoc]
  have hpos := List.length_pos_of_ne_nil hne
  cases hp with
  | unchanged => cases hlen
  | first _ =>
      rw [List.length_singleton] at hlen
      omega
  | wiped _ =>
      rw [List.length_singleton] at hlen
      omega
  | second hfirst hsecond =>
      rw [List.length_cons, List.length_singleton] at hlen
      obtain rfl : ws₁ = [] := List.length_eq_zero_iff.mp (by omega)
      obtain ⟨rfl, -⟩ := List.cons.inj hws
      exact ⟨hfirst, hsecond⟩

/-- The two calls one after the other, each on a front part of its labels: both
end as they do in the race, and leave the same header. -/
def Serial (C : Crypto Key W) (fileLen : UInt64) (ops : Side → Operation) (h : Header W)
    (r : Race Side (Vault W) (VaultInput W) Error Unit (Header W)) : Prop :=
  ∃ s ls₁ ls₂ t₁ t₂ v₁ v₂, ls₁ <+: r.trace s ∧ ls₂ <+: r.trace s.other ∧
    Access.run C fileLen h ⟨ops s, ls₁⟩ = some (t₁, v₁) ∧
    Access.run C fileLen v₁.header ⟨ops s.other, ls₂⟩ = some (t₂, v₂) ∧ v₂.header = r.cell ∧
    (t₁.ended = (r.task s).ended ∧ t₁.isDone = (r.task s).isDone) ∧
    t₂.ended = (r.task s.other).ended ∧ t₂.isDone = (r.task s.other).isDone

/-- A call that wrote nothing between the two writes of a change would end alike
before that change or after it. -/
theorem Operation.exists_run (hapart : KeyslotsApart C h) (hfirst : FirstWrite C len old new h h₁)
    (hsecond : SecondWrite h h₁ h₂) {op : Operation} {ls : List (Label (VaultInput W) Unit)}
    {t : Task (Vault W) (VaultInput W) Error} {v : Vault W}
    (hrun : Access.run C len h₁ ⟨op, ls⟩ = some (t, v)) (hwrites : v.writes = []) :
    ∃ c' ls' t' v', (c' = h ∨ c' = h₂) ∧ ls' <+: ls ∧
      Access.run C len c' ⟨op, ls'⟩ = some (t', v') ∧ v'.header = c' ∧ t'.ended = t.ended ∧
      t'.isDone = t.isDone := by
  cases hend : t.ended with
  | false =>
      refine ⟨h, [], _, _, .inl rfl, List.nil_prefix, rfl, rfl, ?_, ?_⟩
      · cases op <;> rfl
      · rw [Task.not_isDone hend]
        cases op <;> rfl
  | true =>
      obtain ⟨c', hc', htrails⟩ := op.trails hapart hfirst hsecond
      obtain ⟨ls', t', v', hpre, hrun', hget, hend', hdone⟩ :=
        htrails.run envPrivate_cancel (.inr ⟨_, op.reads⟩) rfl hrun hend hwrites
      refine ⟨c', ls', t', v', hc', hpre, hrun', hget, hend', ?_⟩
      rcases hdone with hdone | ⟨hcancellable, hdone⟩
      · exact hdone
      · -- only a password change may fail early, and one that wrote nothing has failed
        cases op with
        | «open» p => exact hcancellable.elim
        | changePassword x y =>
            rw [hdone]
            cases hd : t.isDone with
            | false => rfl
            | true =>
                obtain ⟨g₁, g₂, -, -, hws, -⟩ :=
                  (Call.run_spec (c := ⟨x, y, ls⟩) hrun).2 (Task.isDone_iff.mp hd)
                rw [hwrites] at hws
                cases hws

/-- Two changes of the same password, to different ones. -/
def sampleOps : Side → Operation
  | .one => .changePassword "old" "a"
  | .two => .changePassword "old" "b"

/-- A change of the password, and an `open` with the old one. -/
def readerOps : Side → Operation
  | .one => .changePassword "old" "a"
  | .two => .open "old"

/-- Steps of one call that are granted. -/
def granted (s : Side) (n : Nat) :
    List (Side × Label (VaultInput (IdealKey × ByteArr 12 × Bytes × Bytes)) Unit) :=
  List.replicate n (s, .task (.here ⟨sampleSlotRandom, none, false⟩))

/-- The first call reads the header, the second one runs from start to end, and
then the first one goes on. -/
def overlap : List (Side × Label (VaultInput (IdealKey × ByteArr 12 × Bytes × Bytes)) Unit) :=
  granted .one 3 ++ granted .two 11 ++ granted .one 8

/-- A change of the old password that succeeds leaves no second one to succeed. -/
theorem not_both_change {a b : String} {h' : Header (IdealKey × ByteArr 12 × Bytes × Bytes)}
    {d : Option String} {dek : ByteArr 32} {ls ls' : List (Label _ Unit)}
    {v v' : Vault (IdealKey × ByteArr 12 × Bytes × Bytes)} (ha : a ≠ "old")
    (st : SlotState idealCrypto d dek h')
    (hrun : Access.run idealCrypto len h' ⟨.changePassword "old" a, ls⟩ = some (.done, v)) :
    Access.run idealCrypto len v.header ⟨.changePassword "old" b, ls'⟩ ≠ some (.done, v') := by
  intro hrun'
  obtain ⟨h₁, h₂, hfirst, hsecond, -, hv⟩ := (Call.run_spec (c := ⟨"old", a, ls⟩) hrun).2 rfl
  obtain ⟨h₃, -, ⟨dek', -, -, -, hadmits, -⟩, -⟩ :=
    (Call.run_spec (c := ⟨"old", b, ls'⟩) hrun').2 rfl
  have hold := hadmits.unlocked
  rw [hv] at hold
  exact ha (((hsecond.spec idealCrypto_ideal st hfirst).2.2 "old").mp ⟨dek', hold⟩).symm

end CipherFS.V2
