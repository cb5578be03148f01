import CipherFS.Core.PasswordRuns
import CipherFS.Core.V2.Open
import CipherFS.Framework.Sequential

/-!
# Who can tell that there is a duress password

Two runs in one environment: one with the duress password in some password
argument, one with a password that unlocks nothing. `open`, `verify` and
`extract` answer both alike. A password change answers them differently as soon
as it gets to try the argument.
-/

namespace CipherFS.V2

open Result VaultProg Prog

variable {Key W : Type} {C : Crypto Key W} {rest : Header W → ByteArr 32 → VaultProg W Unit}

/-! ## Password arguments -/

/-- An operation and the password argument that a candidate is given in. -/
inductive Probe where
  | open
  | verify
  | extract
  | newPassword (oldPassword : String)
  | oldPassword (newPassword : String)

/-- The operation with a candidate. -/
def Probe.program (C : Crypto Key W) (rest : Header W → ByteArr 32 → VaultProg W Unit) :
    Probe → String → VaultProg W Unit
  | .open => openContainer C rest
  | .verify => verifyInner C rest
  | .extract => extractV2Inner C rest
  | .newPassword old => changePasswordInner C old
  | .oldPassword new => fun candidate => changePasswordInner C candidate new

/-- The other password argument. -/
def Probe.other : Probe → Option String
  | .newPassword p | .oldPassword p => some p
  | _ => none

def Probe.changesPassword : Probe → Bool
  | .newPassword _ | .oldPassword _ => true
  | _ => false

/-- A password change before it tries the new password. -/
def beforeNewPassword : VaultProg W (Header W) := do
  check
  openFile
  let header ← VaultProg.readHeader
  event (.phaseStarted .keyDerivation)
  return header

/-- A password change after it tried the new password. -/
def afterNewPassword (C : Crypto Key W) (oldPassword newPassword : String) (header : Header W) :
    VaultProg W Unit := do
  check
  let found ← ofExcept (unlock C header oldPassword)
  let dek ← currentDek header found
  rewriteSlots C header dek newPassword

/-- A password change before it tries the current password. -/
def beforeOldPassword (C : Crypto Key W) (newPassword : String) : VaultProg W (Header W) := do
  let header ← beforeNewPassword
  let found ← ofExcept (unlock C header newPassword)
  rejectIf (found = .duress) "New master password must differ from the configured Duress password"
  check
  return header

/-- What a password change does before it tries the argument. -/
def Probe.before (C : Crypto Key W) : Probe → VaultProg W (Header W)
  | .newPassword _ => beforeNewPassword
  | .oldPassword new => beforeOldPassword C new
  | _ => openHeader

/-- In this environment the operation ends before it tries the argument. -/
def Probe.EndsBefore (C : Crypto Key W) (probe : Probe) (v : Vault W)
    (ls : List (Label (VaultInput W) Unit)) : Prop :=
  ∃ e u, (do let _ ← probe.before C; pure () : VaultProg W Unit).task.Fails Vault.cancel v ls e u

theorem changePasswordInner_eq_new (old new : String) : changePasswordInner C old new =
    (do
      let header ← beforeNewPassword
      let found ← ofExcept (unlock C header new)
      rejectIf (found = .duress)
        "New master password must differ from the configured Duress password"
      afterNewPassword C old new header) := rfl

theorem changePasswordInner_eq_old (old new : String) : changePasswordInner C old new =
    (do
      let header ← beforeOldPassword C new
      let found ← ofExcept (unlock C header old)
      let dek ← currentDek header found
      rewriteSlots C header dek new) := rfl

/-- `verify` and `extract` up to the stored header. -/
def readingHeader : VaultProg W (Header W) := do
  check
  event (.phaseStarted .keyDerivation)
  openHeader

theorem openForReading_eq (p : String) : openForReading C rest p =
    (do
      let header ← readingHeader
      let found ← ofExcept (unlock C header p)
      let dek ← openDek header found
      rest header dek) := rfl

/-! ## What the steps complete to -/

/-- Cancelling reports nothing. -/
theorem events_cancel (v : Vault W) (a : Unit) (v' : Vault W) (h : v.cancel a = some v') :
    v'.control.events = v.control.events := by
  cases h
  rfl

/-- A step that neither reads nor writes the header. -/
def KeepsHeader {α : Type} (s : Vault W) (_ : Except Error α) (s' : Vault W) : Prop :=
  s'.header = s.header

theorem header_cancel (v : Vault W) (a : Unit) (v' : Vault W) (h : v.cancel a = some v') :
    v'.header = v.header := by
  cases h
  rfl

section Steps

variable {A : VaultInput W → Prop} {α : Type}

theorem completes_call {f : VaultInput W → Vault W → Except Error α × Vault W}
    (hf : ∀ i v, (f i v).2.header = v.header) :
    Completes Vault.cancel A (call f) KeepsHeader := by
  refine (Completes.call f).conseq ?_
  rintro s r s' ⟨i, u, _, hu, heq⟩
  have hheader := hf i u
  rw [heq] at hheader
  exact hheader.trans (hu.obs_eq header_cancel)

theorem completes_readHeader : Completes Vault.cancel A VaultProg.readHeader
    fun s (r : Except Error (Header W)) s' => s'.header = s.header ∧ ∀ a, r = .ok a → a = s.header := by
  refine (Completes.call _).conseq ?_
  rintro s r s' ⟨i, u, _, hu, heq⟩
  cases heq
  have hheader := hu.obs_eq header_cancel
  refine ⟨hheader, fun a ha => ?_⟩
  split at ha
  · cases ha
  · obtain ⟨⟨⟩, _, ha⟩ := bind_eq_ok.mp ha
    rw [← Except.ok.inj ha, hheader]

/-- What a header program comes to: the stored header. -/
def YieldsHeader (s : Vault W) (r : Except Error (Header W)) (_ : Vault W) : Prop :=
  ∀ a, r = .ok a → a = s.header

theorem completes_openHeader : Completes Vault.cancel A openHeader (YieldsHeader (W := W)) := by
  refine ((completes_call fun _ _ => rfl).bind fun _ => completes_readHeader).conseq ?_
  rintro s r s' (⟨e, rfl, _⟩ | ⟨_, u, hu, _, ha⟩)
  · rintro a ⟨⟩
  · exact fun a hr => (ha a hr).trans hu

theorem KeepsHeader.then {m : VaultProg W α} {m' : VaultProg W (Header W)}
    (hm : Completes Vault.cancel A m KeepsHeader)
    (hm' : Completes Vault.cancel A m' YieldsHeader) :
    Completes Vault.cancel A (do let _ ← m; m') (YieldsHeader (W := W)) := by
  refine (hm.bind fun _ => hm').conseq ?_
  rintro s r s' (⟨e, rfl, _⟩ | ⟨_, u, hu, ha⟩)
  · rintro a ⟨⟩
  · exact fun a hr => (ha a hr).trans hu

theorem completes_readingHeader :
    Completes Vault.cancel A readingHeader (YieldsHeader (W := W)) :=
  KeepsHeader.then (completes_call fun _ _ => rfl) <|
    KeepsHeader.then (completes_call fun _ _ => rfl) completes_openHeader

/-- Steps after the header was read that hand it on. -/
theorem YieldsHeader.then {m : VaultProg W (Header W)} {f : Header W → VaultProg W (Header W)}
    (hm : Completes Vault.cancel A m YieldsHeader)
    (hf : ∀ header, Completes Vault.cancel A (f header) fun _ r _ => ∀ a, r = .ok a → a = header) :
    Completes Vault.cancel A (m >>= f) (YieldsHeader (W := W)) := by
  refine (hm.bind hf).conseq ?_
  rintro s r s' (⟨e, rfl, _⟩ | ⟨header, u, hu, ha⟩)
  · rintro a ⟨⟩
  · exact fun a hr => (ha a hr).trans (hu header rfl)

theorem completes_handOn {m : VaultProg W α} {Q : Vault W → Except Error α → Vault W → Prop}
    (hm : Completes Vault.cancel A m Q) (header : Header W) :
    Completes Vault.cancel A (do let _ ← m; pure header : VaultProg W (Header W))
      fun _ r _ => ∀ a, r = .ok a → a = header := by
  refine (hm.bind fun _ => .pure header).conseq ?_
  rintro s r s' (⟨e, rfl, _⟩ | ⟨_, u, _, rfl, _⟩)
  · rintro a ⟨⟩
  · exact fun a ha => (Except.ok.inj ha).symm

theorem completes_beforeNewPassword :
    Completes Vault.cancel A beforeNewPassword (YieldsHeader (W := W)) := by
  refine KeepsHeader.then (completes_call fun _ _ => rfl) <|
    KeepsHeader.then (completes_call fun _ _ => rfl) <| YieldsHeader.then ?_ fun header =>
      completes_handOn (completes_call fun _ _ => rfl) header
  exact completes_readHeader.conseq fun _ _ _ h => h.2

theorem completes_beforeOldPassword (new : String) :
    Completes Vault.cancel A (beforeOldPassword C new) YieldsHeader := by
  refine YieldsHeader.then completes_beforeNewPassword fun header => ?_
  exact completes_handOn (m := do
    let found ← ofExcept (unlock C header new)
    rejectIf (found = .duress)
      "New master password must differ from the configured Duress password"
    check) ((Completes.ofExcept _).bind fun _ => (Completes.ofExcept _).bind fun _ =>
      completes_call fun _ _ => rfl) header

theorem completes_before (probe : Probe) :
    Completes Vault.cancel A (probe.before C) YieldsHeader := by
  cases probe with
  | newPassword old => exact completes_beforeNewPassword
  | oldPassword new => exact completes_beforeOldPassword new
  | _ => exact completes_openHeader

end Steps

/-! ## Two runs in one environment -/

/-- What the wipe asks for is granted. -/
def Granted (more : List (Label (VaultInput W) Unit)) : Prop :=
  ∀ l ∈ more, l.Uses (fun i => i.fault = none) fun _ => True

/-- Two programs answer alike: where the first ends with an error, the second
ends with the same error and the same events in the same environment, if that
goes on without faults. -/
def AnswersAlike (x q : VaultProg W Unit) (v : Vault W) (pre : List (Label (VaultInput W) Unit)) :
    Prop :=
  ∀ more e u e' u', Granted more →
    run (interleave Vault.cancel) (x.task, v) pre = some (.fail e, u) →
    q.task.Fails Vault.cancel v (pre ++ more) e' u' →
    e' = e ∧ u'.control.events = u.control.events

/-- Programs with a common beginning answer alike where that ends in an error. -/
theorem answersAlike_of_fails {m : VaultProg W (Header W)} {f g : Header W → VaultProg W Unit}
    {Q : Vault W → Except Error (Header W) → Vault W → Prop} {v : Vault W}
    {pre : List (Label (VaultInput W) Unit)} {e u} (hm : Completes Vault.cancel (fun _ => True) m Q)
    (h : (do let _ ← m; pure () : VaultProg W Unit).task.Fails Vault.cancel v pre e u) :
    AnswersAlike (m >>= f) (m >>= g) v pre := by
  obtain ⟨ls₁, ls₂, w, rfl, hexec⟩ := hm.fails h
  intro more e₁ u₁ e₂ u₂ _ hx hq
  have hx' := (Task.Fails.of_run hx []).unique events_cancel
    (by rw [List.append_nil]; exact (hexec.bind_error (f := f)).fails)
  have hq' := hq.unique events_cancel
    (by rw [List.append_assoc]; exact (hexec.bind_error (f := g)).fails)
  exact ⟨hq'.1.trans hx'.1.symm, hq'.2.trans hx'.2.symm⟩

/-- The answer to a password that unlocks nothing. -/
def wrongPassword : Error := ⟨.message "Unable to unlock container (wrong password or damage)", []⟩

/-- A step that is granted: it succeeds and reports nothing. -/
def Silent {α : Type} (s : Vault W) (r : Except Error α) (s' : Vault W) : Prop :=
  (∃ a, r = .ok a) ∧ s'.control.events = s.control.events

theorem completes_silent {α : Type} {f : VaultInput W → Vault W → Except Error α × Vault W}
    (hf : ∀ i v, i.fault = none →
      (∃ a, (f i v).1 = .ok a) ∧ (f i v).2.control.events = v.control.events) :
    Completes Vault.cancel (fun i => i.fault = none) (call f) Silent := by
  refine (Completes.call f).conseq ?_
  rintro s r s' ⟨i, u, hi, hu, heq⟩
  have hstep := hf i u hi
  rw [heq] at hstep
  exact ⟨hstep.1, hstep.2.trans (hu.obs_eq events_cancel)⟩

theorem Silent.then {α β : Type} {m : VaultProg W α} {f : α → VaultProg W β}
    (hm : Completes Vault.cancel (fun i => i.fault = none) m Silent)
    (hf : ∀ a, Completes Vault.cancel (fun i => i.fault = none) (f a) Silent) :
    Completes Vault.cancel (fun i => i.fault = none) (m >>= f) Silent := by
  refine (hm.bind hf).conseq ?_
  rintro s r s' (⟨e, rfl, ⟨a, ha⟩, _⟩ | ⟨a, u, hu, hr, hs⟩)
  · cases ha
  · exact ⟨hr, hs.trans hu.2⟩

theorem completes_wipeForDuress (header : Header W) :
    Completes Vault.cancel (fun i => i.fault = none) (wipeForDuress header) Silent := by
  refine Silent.then (completes_silent fun i v _ => ⟨⟨_, rfl⟩, rfl⟩) fun r₀ => ?_
  refine Silent.then (completes_silent fun i v _ => ⟨⟨_, rfl⟩, rfl⟩) fun r₁ => ?_
  refine Silent.then (completes_silent fun i v hi => ⟨⟨(), ?_⟩, rfl⟩) fun _ => ?_
  · rw [hi]
    rfl
  · refine completes_silent fun i v hi => ⟨⟨(), ?_⟩, ?_⟩
    · rw [hi]
    · rw [hi]

/-- `open` with the duress password answers as with a wrong one. -/
theorem completes_openDek_duress (header : Header W) :
    Completes Vault.cancel (fun i => i.fault = none) (openDek header .duress)
      fun s r s' => r = .error wrongPassword ∧ s'.control.events = s.control.events := by
  refine ((completes_wipeForDuress header).bind fun _ => .throw wrongPassword).conseq ?_
  rintro s r s' (⟨e, rfl, ⟨a, ha⟩, _⟩ | ⟨a, u, hu, hr, rfl⟩)
  · cases ha
  · exact ⟨hr, hu.2⟩

section Answers

variable {h : Header W} {x q : String} {v : Vault W} {pre : List (Label (VaultInput W) Unit)}

/-- An operation that starts by opening, from its beginning on. -/
def opening (C : Crypto Key W) (rest : Header W → ByteArr 32 → VaultProg W Unit) (password : String)
    (header : Header W) : VaultProg W Unit := do
  let found ← ofExcept (unlock C header password)
  let dek ← openDek header found
  rest header dek

/-- Opening answers the duress password as one that unlocks nothing. -/
theorem answersAlike_opening {m : VaultProg W (Header W)}
    (hm : Completes Vault.cancel (fun _ => True) m YieldsHeader) (hq : unlock C h q = .ok .duress)
    (hx : unlock C h x = .ok .failed) (hv : v.header = h) :
    AnswersAlike (m >>= opening C rest x) (m >>= opening C rest q) v pre := by
  rintro more e u e' u' hmore hxrun hqfails
  obtain ⟨n, hqrun⟩ := id hqfails
  obtain ⟨ls₁, ls₂, r, w, hls, hexec, hyield⟩ := hm _ _ v _ _ (fun l _ => l.uses_true) hqrun rfl
  have hsplit : pre ++ more = ls₁ ++ (ls₂ ++ (pre ++ more).drop n) := by
    rw [← List.append_assoc, ← hls, List.take_append_drop]
  have hxfails := Task.Fails.of_run hxrun more
  cases r with
  | error e₀ =>
      rw [hsplit] at hxfails hqfails
      obtain ⟨hex, hux⟩ := hxfails.unique events_cancel hexec.bind_error.fails
      obtain ⟨heq, huq⟩ := hqfails.unique events_cancel hexec.bind_error.fails
      exact ⟨heq.trans hex.symm, huq.trans hux.symm⟩
  | ok header =>
      obtain rfl : header = h := (hyield header rfl).trans hv
      have hxexec : Executes Vault.cancel (m >>= opening C rest x) v ls₁ (.error wrongPassword) w := by
        rw [← List.append_nil ls₁]
        refine hexec.bind_ok ?_
        rw [opening, hx]
        exact .ofExcept (.error wrongPassword) w
      -- beyond the end of the first run, only what the environment grants
      have hgranted : Granted ls₂ := by
        rcases List.append_eq_append_iff.mp hsplit with ⟨d, rfl, hmored⟩ | ⟨d, rfl, hd⟩
        · rw [hmored] at hmore
          exact fun l hl => hmore l (List.mem_append_right _ (List.mem_append_left _ hl))
        · have hrest : run (interleave Vault.cancel) (.fail wrongPassword, w) d =
              some (.fail e, u) := (hxexec _ _ _).symm.trans hxrun
          intro l hl
          have hmem : l ∈ d ++ more := hd ▸ List.mem_append_left _ hl
          rcases List.mem_append.mp hmem with hl | hl
          · obtain ⟨a, rfl⟩ := (Task.run_fail_env hrest).1 l hl
            trivial
          · exact hmore l hl
      rw [hls] at hqrun
      have hrest : run (interleave Vault.cancel)
          (opening C rest q header (fun _ => .done) .fail, w) ls₂ = some (.fail e', u') :=
        (hexec _ _ _).symm.trans hqrun
      have hopening : opening C rest q header =
          (do let dek ← openDek header .duress; rest header dek) := by
        rw [opening, hq]
        rfl
      rw [hopening] at hrest
      obtain ⟨ls₃, ls₄, r', w', rfl, hwipe, rfl, hevents⟩ :=
        completes_openDek_duress header _ _ w ls₂ _ hgranted hrest rfl
      have hend : run (interleave Vault.cancel) (.fail wrongPassword, w') ls₄ = some (.fail e', u') :=
        (hwipe _ _ _).symm.trans hrest
      obtain ⟨hfail, hu'⟩ := Task.run_fail events_cancel hend
      cases hfail
      rw [hsplit] at hxfails
      obtain ⟨rfl, hu⟩ := hxfails.unique events_cancel hxexec.fails
      exact ⟨rfl, hu'.trans (hevents.trans hu.symm)⟩

/-! ## Password changes -/

/-- The answer to the duress password as a new one. -/
def mustDiffer : Error :=
  ⟨.message "New master password must differ from the configured Duress password", []⟩

/-- An accepted header is not unlocked only where Argon2 fails. -/
theorem unlock_eq_error {p : String} {e : Error} (hacc : HeaderAccepted h)
    (hunlock : unlock C h p = .error e) : e = ⟨.message "Argon2 failed", []⟩ := by
  have hderive : ∀ {salt params} {e : Error}, validateArgon2 params = .ok () →
      deriveKek C p salt params = .error e → e = ⟨.message "Argon2 failed", []⟩ := by
    intro salt params e hparams hkek
    rw [deriveKek, hparams, ok_bind] at hkek
    cases harg : C.argon2id p salt params with
    | some kek =>
        rw [harg] at hkek
        cases hkek
    | none =>
        rw [harg] at hkek
        cases hkek
        rfl
  have hslots : ∀ {slots : List (KeySlot W)} {e : Error},
      (∀ s ∈ slots, validateArgon2 s.params = .ok ()) → unlockSlots C h p slots = .error e →
      e = ⟨.message "Argon2 failed", []⟩ := by
    intro slots
    induction slots with
    | nil =>
        intro e _ hf
        cases hf
    | cons s rest ih =>
        intro e hvalid hf
        rw [List.forall_mem_cons] at hvalid
        rw [unlockSlots] at hf
        cases hkek : deriveKek C p s.salt s.params with
        | error e' =>
            rw [hkek] at hf
            cases hf
            exact hderive hvalid.1 hkek
        | ok kek =>
            rw [hkek, ok_bind] at hf
            split at hf
            · cases hf
            · exact ih hvalid.2 hf
  have hvalid : validateHeaderBasic h none = .ok () := by
    rw [validateHeaderBasic_eq_ok]
    refine ⟨hacc, ?_⟩
    intro len hlen
    cases hlen
  rw [unlock, hvalid, ok_bind] at hunlock
  cases hfound : unlockSlots C h p (candidates h) with
  | error e' =>
      rw [hfound] at hunlock
      cases hunlock
      refine hslots (fun s hs => ?_) hfound
      obtain ⟨hmem, hgen⟩ := mem_candidates.mp hs
      exact hacc.slots s hmem hgen
  | ok found =>
      rw [hfound, ok_bind] at hunlock
      cases found with
      | some dek => cases hunlock
      | none =>
          dsimp only at hunlock
          split at hunlock
          · rename_i henabled
            cases hkek : deriveKek C p h.duress.salt h.duress.params with
            | error e' =>
                rw [hkek] at hunlock
                cases hunlock
                exact hderive (hacc.duress henabled) hkek
            | ok kek =>
                rw [hkek, ok_bind] at hunlock
                split at hunlock <;> cases hunlock
          · cases hunlock

/-- If the program fails, then not with `mustDiffer`. -/
def ErrsOtherwise {α : Type} (_ : Vault W) (r : Except Error α) (_ : Vault W) : Prop :=
  ∀ e, r = .error e → e ≠ mustDiffer

/-- The program fails, and not with `mustDiffer`. -/
def FailsOtherwise {α : Type} (_ : Vault W) (r : Except Error α) (_ : Vault W) : Prop :=
  ∃ e, r = .error e ∧ e ≠ mustDiffer

section Otherwise

variable {α β : Type} {A : VaultInput W → Prop}

theorem completes_errsOtherwise {f : VaultInput W → Vault W → Except Error α × Vault W}
    (hf : ∀ i v e, (f i v).1 = .error e → e ≠ mustDiffer) :
    Completes Vault.cancel A (call f) ErrsOtherwise := by
  refine (Completes.call f).conseq ?_
  rintro s r s' ⟨i, u, _, _, heq⟩ e rfl
  exact hf i u e (congrArg Prod.fst heq)

theorem ErrsOtherwise.bind {m : VaultProg W α} {f : α → VaultProg W β}
    (hm : Completes Vault.cancel A m ErrsOtherwise)
    (hf : ∀ a, Completes Vault.cancel A (f a) ErrsOtherwise) :
    Completes Vault.cancel A (m >>= f) ErrsOtherwise := by
  refine (hm.bind hf).conseq ?_
  rintro s r s' (⟨e, rfl, he⟩ | ⟨a, u, _, hr⟩)
  · rintro e' ⟨⟩
    exact he e rfl
  · exact hr

theorem ErrsOtherwise.bind_fails {m : VaultProg W α} {f : α → VaultProg W β}
    (hm : Completes Vault.cancel A m ErrsOtherwise)
    (hf : ∀ a, Completes Vault.cancel A (f a) FailsOtherwise) :
    Completes Vault.cancel A (m >>= f) FailsOtherwise := by
  refine (hm.bind hf).conseq ?_
  rintro s r s' (⟨e, rfl, he⟩ | ⟨a, u, _, hr⟩)
  · exact ⟨e, rfl, he e rfl⟩
  · exact hr

theorem FailsOtherwise.bind {m : VaultProg W α} (f : α → VaultProg W β)
    (hm : Completes Vault.cancel A m FailsOtherwise) :
    Completes Vault.cancel A (m >>= f) FailsOtherwise := by
  refine (Completes.bind_fails f hm ?_).conseq ?_
  · rintro s a s' ⟨e, he, _⟩
    cases he
  · rintro s r s' ⟨e, rfl, e', he, hne⟩
    cases he
    exact ⟨e, rfl, hne⟩

theorem completes_bail {text : String} (htext : (⟨.message text, []⟩ : Error) ≠ mustDiffer) :
    Completes Vault.cancel A (bail text : VaultProg W α) FailsOtherwise := by
  refine (Completes.throw _).conseq ?_
  rintro s r s' ⟨rfl, _⟩
  exact ⟨_, rfl, htext⟩

theorem completes_check_errsOtherwise :
    Completes Vault.cancel A (check : VaultProg W Unit) ErrsOtherwise := by
  refine completes_errsOtherwise fun i v e he => ?_
  split at he
  · cases he
    decide
  · cases he

theorem completes_wipe_errsOtherwise (header : Header W) :
    Completes Vault.cancel A (wipeForDuress header) ErrsOtherwise := by
  have hio : ∀ (fault : Option String) (e : Error),
      fault.elim (.ok () : Result Unit) Result.ioError = .error e → e ≠ mustDiffer := by
    rintro (_ | text) e he
    · cases he
    · cases he
      rintro ⟨⟩
  refine ErrsOtherwise.bind (completes_errsOtherwise fun i v e he => by cases he) fun r₀ => ?_
  refine ErrsOtherwise.bind (completes_errsOtherwise fun i v e he => by cases he) fun r₁ => ?_
  refine ErrsOtherwise.bind (completes_errsOtherwise fun i v e he => hio i.fault e he) fun _ => ?_
  refine completes_errsOtherwise fun i v e he => ?_
  cases hfault : i.fault with
  | none =>
      rw [hfault] at he
      cases he
  | some text =>
      rw [hfault] at he
      cases he
      rintro ⟨⟩

end Otherwise

/-- Without the master password a change goes no further than the current
password, and answers otherwise than to a new duress password. -/
theorem completes_afterNewPassword {old new : String} (hacc : HeaderAccepted h)
    (hold : ∀ dek, unlock C h old ≠ .ok (.unlocked dek)) :
    Completes Vault.cancel (fun _ => True) (afterNewPassword C old new h) FailsOtherwise := by
  refine ErrsOtherwise.bind_fails completes_check_errsOtherwise fun _ => ?_
  cases hunlock : unlock C h old with
  | error e =>
      refine FailsOtherwise.bind _ ((Completes.throw e).conseq ?_)
      rintro s r s' ⟨rfl, _⟩
      refine ⟨e, rfl, ?_⟩
      rw [unlock_eq_error hacc hunlock]
      decide
  | ok found =>
      show Completes Vault.cancel (fun _ => True)
        (do let dek ← currentDek h found; rewriteSlots C h dek new) FailsOtherwise
      refine FailsOtherwise.bind _ ?_
      cases found with
      | unlocked dek => exact absurd hunlock (hold dek)
      | failed => exact completes_bail (by decide)
      | duress =>
          refine ErrsOtherwise.bind_fails completes_check_errsOtherwise fun _ => ?_
          refine ErrsOtherwise.bind_fails
            (completes_errsOtherwise fun i v e he => by cases he) fun _ => ?_
          exact ErrsOtherwise.bind_fails (completes_wipe_errsOtherwise h) fun _ =>
            completes_bail (by decide)

/-! ## The two answers of a password change -/

/-- The random bytes of a step that is answered without a fault. -/
def grantedRandom (h : Header W) : SlotRandom W :=
  ⟨ByteArr.zero 16, ByteArr.zero 12, h.slot0.encryptedDek⟩

def grantedInput (h : Header W) : VaultInput W := ⟨grantedRandom h, none, false⟩

/-- A step that is answered without a fault. -/
def grantedStep (h : Header W) : Label (VaultInput W) Unit := .task (.here (grantedInput h))

theorem granted_replicate (n : Nat) : Granted (List.replicate n (grantedStep h)) := by
  intro l hl
  rw [List.eq_of_mem_replicate hl]
  exact rfl

/-- The vault after a wipe. -/
def wipedVault (h : Header W) (v : Vault W) : Vault W :=
  { v with
    header := wipedHeader h (grantedRandom h) (grantedRandom h)
    writes := v.writes ++ [wipedHeader h (grantedRandom h) (grantedRandom h)] }

theorem executes_wipeForDuress (v : Vault W) : Executes Vault.cancel (wipeForDuress h) v
    (List.replicate 4 (grantedStep h)) (.ok ()) (wipedVault h v) := by
  show Executes Vault.cancel (wipeForDuress h) v
    ([grantedStep h] ++ ([grantedStep h] ++ ([grantedStep h] ++ [grantedStep h]))) _ _
  exact (Executes.call _).bind_ok <| (Executes.call _).bind_ok <| (Executes.call _).bind_ok <|
    Executes.call _

variable {e : Error} {u : Vault W}

theorem executes_check_cancelled (hc : u.control.cancelled = true) :
    Executes Vault.cancel (check : VaultProg W Unit) u [grantedStep h]
      (.error ⟨.cancelled, []⟩) u := by
  refine .call_eq ?_
  rw [show (Controlled.control u).cancelled = true from hc]
  rfl

theorem executes_check (hc : ¬u.control.cancelled = true) :
    Executes Vault.cancel (check : VaultProg W Unit) u [grantedStep h] (.ok ()) u := by
  refine .call_eq ?_
  rw [if_neg (show ¬(Controlled.control u).cancelled = true from hc)]

/-- A run that fails either fails in its beginning, or comes to the stored header
and goes on from there. -/
theorem fails_or_continues {m : VaultProg W (Header W)} {f : Header W → VaultProg W Unit}
    (hm : Completes Vault.cancel (fun _ => True) m YieldsHeader) (hv : v.header = h)
    (hrun : run (interleave Vault.cancel) ((m >>= f).task, v) pre = some (.fail e, u)) :
    (∃ e u, (do let _ ← m; pure () : VaultProg W Unit).task.Fails Vault.cancel v pre e u) ∨
      ∃ ls₁ ls₂ w, pre = ls₁ ++ ls₂ ∧ Executes Vault.cancel m v ls₁ (.ok h) w ∧
        run (interleave Vault.cancel) ((f h).task, w) ls₂ = some (.fail e, u) := by
  obtain ⟨ls₁, ls₂, r, w, rfl, hexec, hyield⟩ :=
    hm _ _ v _ _ (fun l _ => l.uses_true) hrun rfl
  cases r with
  | error e₀ => exact .inl ⟨e₀, w, hexec.bind_error.fails⟩
  | ok header =>
      obtain rfl : header = h := (hyield header rfl).trans hv
      exact .inr ⟨ls₁, ls₂, w, rfl, hexec, (hexec _ _ _).symm.trans hrun⟩

/-- The program ends after the labels, if the environment goes on without faults. -/
def CanEnd (q : VaultProg W Unit) (v : Vault W) (pre : List (Label (VaultInput W) Unit))
    (P : Error → Vault W → Prop) : Prop :=
  ∃ more e u, Granted more ∧ q.task.Fails Vault.cancel v (pre ++ more) e u ∧ P e u

theorem CanEnd.of_fails {m : VaultProg W (Header W)} {g : Header W → VaultProg W Unit}
    (hm : Completes Vault.cancel (fun _ => True) m YieldsHeader)
    (h : ∃ e u, (do let _ ← m; pure () : VaultProg W Unit).task.Fails Vault.cancel v pre e u) :
    CanEnd (m >>= g) v pre fun _ _ => True := by
  obtain ⟨e₀, u₀, h⟩ := h
  obtain ⟨ls₁, ls₂, w, rfl, hexec⟩ := hm.fails h
  refine ⟨[], e₀, w, (by intro l hl; cases hl), ?_, trivial⟩
  rw [List.append_assoc]
  exact hexec.bind_error.fails

/-- A program that goes on where another one ended at once. -/
theorem CanEnd.of_continues {m : VaultProg W (Header W)} {g : Header W → VaultProg W Unit}
    {ls₁ ls₂ : List (Label (VaultInput W) Unit)} {w : Vault W} {e₀ : Error}
    {P : Error → Vault W → Prop} (hexec : Executes Vault.cancel m v ls₁ (.ok h) w)
    (hend : run (interleave Vault.cancel) (.fail e₀, w) ls₂ = some (.fail e, u))
    (hgo : ∃ n e' w', Executes Vault.cancel (g h) u (List.replicate n (grantedStep h))
      (.error e') w' ∧ P e' w') : CanEnd (m >>= g) v (ls₁ ++ ls₂) P := by
  obtain ⟨n, e', w', hgo, hP⟩ := hgo
  refine ⟨List.replicate n (grantedStep h), e', w', granted_replicate n, ?_, hP⟩
  refine ⟨((ls₁ ++ ls₂) ++ List.replicate n (grantedStep h)).length, ?_⟩
  rw [List.take_length, List.append_assoc]
  have hwait := (Task.run_fail_env hend).2 ((g h).task)
  calc run (interleave Vault.cancel) ((m >>= g).task, v)
        (ls₁ ++ (ls₂ ++ List.replicate n (grantedStep h)))
      = run (interleave Vault.cancel) ((g h).task, w)
          (ls₂ ++ List.replicate n (grantedStep h)) := hexec _ _ _
    _ = run (interleave Vault.cancel) ((g h).task, u) (List.replicate n (grantedStep h)) := by
        rw [run_append, hwait]
        rfl
    _ = some (.fail e', w') := by
        have := hgo (fun _ => .done) .fail []
        rwa [List.append_nil] at this

/-- Opening with the duress password comes to an end as well. -/
theorem canEnd_opening {m : VaultProg W (Header W)}
    (hm : Completes Vault.cancel (fun _ => True) m YieldsHeader) (hq : unlock C h q = .ok .duress)
    (hx : unlock C h x = .ok .failed) (hv : v.header = h)
    (hrun : run (interleave Vault.cancel) ((m >>= opening C rest x).task, v) pre =
      some (.fail e, u)) :
    CanEnd (m >>= opening C rest q) v pre fun _ _ => True := by
  rcases fails_or_continues hm hv hrun with hends | ⟨ls₁, ls₂, w, rfl, hexec, hrest⟩
  · exact .of_fails hm hends
  · have hend : run (interleave Vault.cancel) (.fail wrongPassword, w) ls₂ = some (.fail e, u) := by
      rw [opening, hx] at hrest
      exact hrest
    refine .of_continues hexec hend ⟨4, wrongPassword, wipedVault h u, ?_, trivial⟩
    rw [opening, hq, ← List.append_nil (List.replicate 4 _)]
    exact ((executes_wipeForDuress u).bind_ok (.ofExcept (.error wrongPassword) _)).bind_error

/-- The duress password as a new password is refused by name. -/
theorem newPassword_differs {old : String} (hq : unlock C h q = .ok .duress)
    (hx : unlock C h x = .ok .failed) (hold : ∀ dek, unlock C h old ≠ .ok (.unlocked dek))
    (hv : v.header = h)
    (hrun : run (interleave Vault.cancel) ((changePasswordInner C old x).task, v) pre =
      some (.fail e, u)) :
    (Probe.newPassword old).EndsBefore C v pre ∨
      CanEnd (changePasswordInner C old q) v pre fun e' _ => e' ≠ e := by
  rw [changePasswordInner_eq_new] at hrun
  rcases fails_or_continues completes_beforeNewPassword hv hrun with
    hends | ⟨ls₁, ls₂, w, rfl, hexec, hrest⟩
  · exact .inl hends
  have hgo : run (interleave Vault.cancel) ((afterNewPassword C old x h).task, w) ls₂ =
      some (.fail e, u) := by
    rw [hx] at hrest
    exact hrest
  have hacc : HeaderAccepted h := by
    rw [unlock, bind_eq_ok] at hq
    obtain ⟨⟨⟩, hvalid, _⟩ := hq
    exact (validateHeaderBasic_eq_ok.mp hvalid).1
  obtain ⟨ls₃, ls₄, r, w', rfl, hexec', e', rfl, hne⟩ := completes_afterNewPassword hacc hold
    _ _ w ls₂ _ (fun l _ => l.uses_true) hgo rfl
  have hend := (hexec' _ _ _).symm.trans hgo
  obtain ⟨hfail, _⟩ := Task.run_fail events_cancel hend
  cases hfail
  have hrefused : Executes Vault.cancel (changePasswordInner C old q) v (ls₁ ++ [])
      (.error mustDiffer) w := by
    rw [changePasswordInner_eq_new]
    refine hexec.bind_ok ?_
    rw [hq]
    exact .ofExcept (.error mustDiffer) w
  rw [List.append_nil] at hrefused
  refine .inr ⟨[], mustDiffer, w, (by intro l hl; cases hl), ?_, hne.symm⟩
  rw [List.append_assoc]
  exact hrefused.fails

/-- The duress password as the current password is cancelled or reports a
mutation, where another password is refused. -/
theorem oldPassword_differs {new : String} (hq : unlock C h q = .ok .duress)
    (hx : unlock C h x = .ok .failed) (hv : v.header = h)
    (hrun : run (interleave Vault.cancel) ((changePasswordInner C x new).task, v) pre =
      some (.fail e, u)) :
    (Probe.oldPassword new).EndsBefore C v pre ∨
      CanEnd (changePasswordInner C q new) v pre fun e' u' =>
        ¬(e' = e ∧ u'.control.events = u.control.events) := by
  rw [changePasswordInner_eq_old] at hrun
  rcases fails_or_continues (completes_beforeOldPassword new) hv hrun with
    hends | ⟨ls₁, ls₂, w, rfl, hexec, hrest⟩
  · exact .inl hends
  have hend : run (interleave Vault.cancel) (.fail wrongPassword, w) ls₂ = some (.fail e, u) := by
    rw [hx] at hrest
    exact hrest
  obtain ⟨hfail, _⟩ := Task.run_fail events_cancel hend
  cases hfail
  refine .inr ?_
  rw [changePasswordInner_eq_old]
  have hgo : (do
      let found ← ofExcept (unlock C h q)
      let dek ← currentDek h found
      rewriteSlots C h dek new) = (do
      check
      event .mutationStarted
      wipeForDuress h
      let dek ← bail "Unable to unlock container (wrong password or damage)"
      rewriteSlots C h dek new) := by
    rw [hq]
    rfl
  refine .of_continues hexec hend ?_
  rw [hgo]
  by_cases hc : u.control.cancelled = true
  · refine ⟨1, ⟨.cancelled, []⟩, u, (executes_check_cancelled hc).bind_error, ?_⟩
    rintro ⟨⟨⟩, _⟩
  · let reported := (Controlled.setControl u
      { u.control with events := u.control.events ++ [.mutationStarted] } : Vault W)
    refine ⟨6, wrongPassword, wipedVault h reported, ?_, ?_⟩
    · have hgone : Executes Vault.cancel (do
          wipeForDuress h
          let dek ← bail "Unable to unlock container (wrong password or damage)"
          rewriteSlots C h dek new) reported (List.replicate 4 (grantedStep h) ++ [])
          (.error wrongPassword) (wipedVault h reported) :=
        (executes_wipeForDuress reported).bind_ok
          (Executes.ofExcept (.error wrongPassword) _).bind_error
      rw [List.append_nil] at hgone
      have hreport : Executes Vault.cancel (event .mutationStarted : VaultProg W Unit) u
          [grantedStep h] (.ok ()) reported := .call (grantedInput h)
      exact (executes_check hc).bind_ok (hreport.bind_ok hgone)
    · rintro ⟨_, hevents⟩
      exact List.cons_ne_nil _ _ (List.append_right_eq_self.mp hevents)

/-! ## Which operations give it away -/

theorem Probe.program_eq_opening (C : Crypto Key W)
    (rest : Header W → ByteArr 32 → VaultProg W Unit) {probe : Probe} (h : probe.changesPassword = false) :
    ∃ m : VaultProg W (Header W), Completes Vault.cancel (fun _ => True) m YieldsHeader ∧
      ∀ p, probe.program C rest p = m >>= opening C rest p := by
  cases probe with
  | «open» => exact ⟨openHeader, completes_openHeader, fun _ => rfl⟩
  | verify => exact ⟨readingHeader, completes_readingHeader, fun p => openForReading_eq p⟩
  | extract => exact ⟨readingHeader, completes_readingHeader, fun p => openForReading_eq p⟩
  | newPassword _ => cases h
  | oldPassword _ => cases h

theorem Probe.program_eq_before (C : Crypto Key W)
    (rest : Header W → ByteArr 32 → VaultProg W Unit) {probe : Probe} (h : probe.changesPassword = true) :
    ∃ f : String → Header W → VaultProg W Unit,
      ∀ p, probe.program C rest p = probe.before C >>= f p := by
  cases probe with
  | newPassword old => exact ⟨_, changePasswordInner_eq_new old⟩
  | oldPassword new => exact ⟨_, fun p => changePasswordInner_eq_old p new⟩
  | _ => cases h

/-- An operation that changes a password and tries the argument tells the duress
password from one that unlocks nothing. -/
theorem Probe.differs {probe : Probe} (hchanges : probe.changesPassword = true)
    (hq : unlock C h q = .ok .duress) (hx : unlock C h x = .ok .failed)
    (hother : ∀ p ∈ probe.other, ∀ dek, unlock C h p ≠ .ok (.unlocked dek)) (hv : v.header = h)
    (hrun : run (interleave Vault.cancel) ((probe.program C rest x).task, v) pre =
      some (.fail e, u)) :
    probe.EndsBefore C v pre ∨ CanEnd (probe.program C rest q) v pre fun e' u' =>
      ¬(e' = e ∧ u'.control.events = u.control.events) := by
  cases probe with
  | newPassword old =>
      refine (newPassword_differs hq hx (hother old rfl) hv hrun).imp_right ?_
      rintro ⟨more, e', u', hmore, hfails, hne⟩
      exact ⟨more, e', u', hmore, hfails, fun h => hne h.1⟩
  | oldPassword new => exact oldPassword_differs hq hx hv hrun
  | _ => cases hchanges

end Answers

/-- **Who can tell**: take a run of an operation with a password that unlocks
nothing, by a caller who has no master password. With the duress password in its
place the operation comes to an end in the same environment, and it ends with the
same error and the same events exactly if it is `open`, `verify` or `extract`, or
it ends before it tries the argument. -/
theorem duress_deniable_iff (rest : Header W → ByteArr 32 → VaultProg W Unit) (h : Header W)
    (x q : String) (hq : unlock C h q = .ok .duress) (hx : unlock C h x = .ok .failed)
    (probe : Probe) (hother : ∀ p ∈ probe.other, ∀ dek, unlock C h p ≠ .ok (.unlocked dek))
    (v : Vault W) (hv : v.header = h) (pre : List (Label (VaultInput W) Unit)) (e : Error)
    (u : Vault W) (hrun : run (interleave Vault.cancel) ((probe.program C rest x).task, v) pre =
      some (.fail e, u)) :
    CanEnd (probe.program C rest q) v pre (fun _ _ => True) ∧
      (AnswersAlike (probe.program C rest x) (probe.program C rest q) v pre ↔
        probe.changesPassword = false ∨ probe.EndsBefore C v pre) := by
  by_cases hchanges : probe.changesPassword = true
  · obtain ⟨f, hf⟩ := Probe.program_eq_before C rest hchanges
    rcases probe.differs hchanges hq hx hother hv hrun with hends | hdiffers
    · refine ⟨?_, fun _ => .inr hends, fun _ => ?_⟩
      · rw [hf q]
        exact .of_fails (completes_before probe) hends
      · obtain ⟨e₀, u₀, hends⟩ := hends
        rw [hf x, hf q]
        exact answersAlike_of_fails (completes_before probe) hends
    · obtain ⟨more, e', u', hmore, hfails, hne⟩ := hdiffers
      refine ⟨⟨more, e', u', hmore, hfails, trivial⟩, fun halike => ?_, ?_⟩
      · exact absurd (halike more e u e' u' hmore hrun hfails) hne
      · rintro (hno | ⟨e₀, u₀, hends⟩)
        · rw [hchanges] at hno
          cases hno
        · rw [hf x, hf q]
          exact answersAlike_of_fails (completes_before probe) hends
  · rw [Bool.not_eq_true] at hchanges
    obtain ⟨m, hm, hprogram⟩ := Probe.program_eq_opening C rest hchanges
    rw [hprogram x] at hrun ⊢
    rw [hprogram q]
    exact ⟨canEnd_opening hm hq hx hv hrun, fun _ => .inl hchanges,
      fun _ => answersAlike_opening hm hq hx hv⟩

theorem unlock_duressHeader : unlock idealCrypto duressHeader "duress" = .ok .duress ∧
    unlock idealCrypto duressHeader "guess" = .ok .failed ∧
    unlock idealCrypto duressHeader "other" = .ok .failed := by
  decide +kernel

theorem duress_deniable_iff_sample :
    AnswersAlike (Probe.open.program idealCrypto (fun _ _ => pure ()) "guess")
      (Probe.open.program idealCrypto (fun _ _ => pure ()) "duress")
      (Vault.start duressHeader 4112) (List.replicate 2 (grantedStep duressHeader)) := by
  obtain ⟨hduress, hguess, -⟩ := unlock_duressHeader
  obtain ⟨u, hrun⟩ : ∃ u, run (interleave Vault.cancel)
      ((Probe.open.program idealCrypto (fun _ _ => pure ()) "guess").task,
        Vault.start duressHeader 4112) (List.replicate 2 (grantedStep duressHeader)) =
      some (.fail wrongPassword, u) := Task.exists_fail (by decide +kernel)
  exact (duress_deniable_iff (fun _ _ => pure ()) duressHeader "guess" "duress" hduress hguess
    .open nofun _ rfl _ _ u hrun).2.mpr (.inl rfl)

/-- Without a master password, "duress" as the new password is refused with a
text that says what it is. -/
theorem new_password_reveals_duress : ¬∀ (h : Header (IdealKey × ByteArr 12 × Bytes × Bytes))
    (x q : String), unlock idealCrypto h q = .ok .duress → unlock idealCrypto h x = .ok .failed →
    ∀ probe : Probe, (∀ p ∈ probe.other, ∀ dek, unlock idealCrypto h p ≠ .ok (.unlocked dek)) →
    ∀ v : Vault (IdealKey × ByteArr 12 × Bytes × Bytes), v.header = h → ∀ pre,
      AnswersAlike (probe.program idealCrypto (fun _ _ => pure ()) x)
        (probe.program idealCrypto (fun _ _ => pure ()) q) v pre := by
  intro halike
  obtain ⟨hduress, hguess, hother⟩ := unlock_duressHeader
  obtain ⟨u, hrun⟩ : ∃ u, run (interleave Vault.cancel)
      ((changePasswordInner idealCrypto "other" "guess").task, Vault.start duressHeader 4112)
      (List.replicate 5 (grantedStep duressHeader)) = some (.fail wrongPassword, u) :=
    Task.exists_fail (by decide +kernel)
  obtain ⟨u', hrun'⟩ : ∃ u, run (interleave Vault.cancel)
      ((changePasswordInner idealCrypto "other" "duress").task, Vault.start duressHeader 4112)
      (List.replicate 4 (grantedStep duressHeader)) = some (.fail mustDiffer, u) :=
    Task.exists_fail (by decide +kernel)
  have hsame := halike duressHeader "guess" "duress" hduress hguess (.newPassword "other")
    (by
      rintro p ⟨⟩ dek hu
      rw [hother] at hu
      cases hu)
    (.start duressHeader 4112) rfl _ [] _ _ _ _ (by intro l hl; cases hl) hrun ⟨4, hrun'⟩
  exact absurd hsame.1 (by decide)

end CipherFS.V2
