import CipherFS.Framework.Runs

/-!
# Programs with parallel loops, as trees of atomic steps

A `Task` is what is left of a program to do: an atomic step on the shared state,
or a parallel loop whose children take their steps in any order. An atomic step
gets an input (what the operating system or the random source answers) and may
refuse it. A parallel loop ends when all children have ended well, or with the
error of one child as soon as every child that has started has ended; children
that have not started by then never do.

`Prog` is a program with a result, in continuation-passing style, so that a
function of the source is one `do` block.
-/

namespace CipherFS

/-- The rest of a program over states `σ`, inputs `ι` and errors `ε`. -/
inductive Task (σ ι ε : Type) : Type where
  | done
  | fail (e : ε)
  | act (f : ι → σ → Option σ) (next : ι → σ → Task σ ι ε)
  | fork (n : Nat) (started : Fin n → Bool) (children : Fin n → Task σ ι ε)
      (next : Task σ ι ε) (handler : ε → Task σ ι ε)

/-- Where the next step is taken. -/
inductive Pick (ι : Type) where
  | here (i : ι)
  | child (i : Nat) (p : Pick ι)
  | join
  | abort (i : Nat)

variable {σ ι ε α β : Type}

namespace Task

def isDone : Task σ ι ε → Bool
  | done => true
  | _ => false

def error? : Task σ ι ε → Option ε
  | fail e => some e
  | _ => none

/-- Nothing is left to do. -/
def ended (t : Task σ ι ε) : Bool := t.isDone || t.error?.isSome

/-- One step. `none` means that the step cannot be taken there. -/
def step : Task σ ι ε → σ → Pick ι → Option (Task σ ι ε × σ)
  | act f next, s, .here i => (f i s).map fun s' => (next i s, s')
  | fork n started children next handler, s, .child i p =>
    if hi : i < n then
      ((children ⟨i, hi⟩).step s p).map fun r =>
        (fork n (Function.update started ⟨i, hi⟩ true)
          (Function.update children ⟨i, hi⟩ r.1) next handler, r.2)
    else none
  | fork _ _ children next _, s, .join =>
    if ∀ i, (children i).isDone then some (next, s) else none
  | fork n started children _ handler, s, .abort i =>
    if hi : i < n then
      if ∀ j, started j → (children j).ended then
        (children ⟨i, hi⟩).error?.map fun e => (handler e, s)
      else none
    else none
  | _, _, _ => none

@[simp] theorem isDone_iff {t : Task σ ι ε} : t.isDone = true ↔ t = done := by
  cases t <;> simp [isDone]

@[simp] theorem error?_eq_some {t : Task σ ι ε} {e : ε} : t.error? = some e ↔ t = fail e := by
  cases t <;> simp [error?]

theorem ended_iff {t : Task σ ι ε} : t.ended = true ↔ t = done ∨ ∃ e, t = fail e := by
  cases t <;> simp [ended, isDone, error?]

theorem not_isDone {t : Task σ ι ε} (h : t.ended = false) : t.isDone = false :=
  (Bool.or_eq_false_iff.mp h).1

/-- Every way in which a step can be taken. -/
theorem step_cases {t t' : Task σ ι ε} {s s' : σ} {p : Pick ι} (h : t.step s p = some (t', s')) :
    (∃ f next i, t = act f next ∧ p = .here i ∧ f i s = some s' ∧ t' = next i s) ∨
    (∃ n started children next handler, t = fork n started children next handler ∧
      ((∃ (i : Fin n) (q : Pick ι) (c : Task σ ι ε), p = .child i q ∧
          (children i).step s q = some (c, s') ∧
          t' = fork n (Function.update started i true) (Function.update children i c)
            next handler) ∨
        (p = .join ∧ (∀ i, children i = done) ∧ t' = next ∧ s' = s) ∨
        ∃ (i : Fin n) (e : ε), p = .abort i ∧ children i = fail e ∧ t' = handler e ∧ s' = s)) := by
  cases t with
  | done => cases h
  | fail e => cases h
  | act f next =>
      cases p with
      | here i =>
          obtain ⟨s'', hf, heq⟩ := Option.map_eq_some_iff.mp h
          cases heq
          exact .inl ⟨f, next, i, rfl, rfl, hf, rfl⟩
      | child i q => cases h
      | join => cases h
      | abort i => cases h
  | fork n started children next handler =>
      refine .inr ⟨n, started, children, next, handler, rfl, ?_⟩
      cases p with
      | here i => cases h
      | child i q =>
          rw [step] at h
          split at h
          · rename_i hi
            obtain ⟨⟨c, s''⟩, hc, heq⟩ := Option.map_eq_some_iff.mp h
            cases heq
            exact .inl ⟨⟨i, hi⟩, q, c, rfl, hc, rfl⟩
          · cases h
      | join =>
          rw [step] at h
          split at h
          · rename_i hall
            cases h
            exact .inr (.inl ⟨rfl, fun i => isDone_iff.mp (hall i), rfl, rfl⟩)
          · cases h
      | abort i =>
          rw [step] at h
          split at h
          · rename_i hi
            split at h
            · obtain ⟨e, he, heq⟩ := Option.map_eq_some_iff.mp h
              cases heq
              exact .inr (.inr ⟨⟨i, hi⟩, e, rfl, error?_eq_some.mp he, rfl, rfl⟩)
            · cases h
          · cases h

/-! ## Termination -/

/-- One task is what a step of the other leaves. -/
def After (t' t : Task σ ι ε) : Prop := ∃ s p s', t.step s p = some (t', s')

end Task

/-- One component of a tuple has gone down. -/
def StepAt {T : Type} (r : T → T → Prop) {n : Nat} (c' c : Fin n → T) : Prop :=
  ∃ i t, r t (c i) ∧ c' = Function.update c i t

/-- A tuple of accessible components is accessible. -/
theorem acc_stepAt {T : Type} {r : T → T → Prop} : ∀ {n : Nat} {c : Fin n → T},
    (∀ i, Acc r (c i)) → Acc (StepAt r) c := by
  intro n
  induction n with
  | zero =>
      intro c _
      exact Acc.intro _ fun _ ⟨i, _⟩ => i.elim0
  | succ n ih =>
      intro c hc
      have hpair := (hc 0).prod_gameAdd (ih fun i => hc i.succ)
      have hsplit : Acc (InvImage (Prod.GameAdd r (StepAt r))
          fun c : Fin (n + 1) → T => (c 0, Fin.tail c)) c := InvImage.accessible _ hpair
      refine Subrelation.accessible ?_ hsplit
      rintro c' c ⟨i, t, ht, rfl⟩
      rcases Fin.eq_zero_or_eq_succ i with rfl | ⟨i, rfl⟩
      · have htail : Fin.tail (Function.update c 0 t) = Fin.tail c := by
          rw [Fin.tail_update_zero]
        rw [InvImage, htail, Function.update_self]
        exact .fst ht
      · have hhead : Function.update c i.succ t 0 = c 0 :=
          Function.update_of_ne (Fin.succ_ne_zero i).symm _ _
        rw [InvImage, Fin.tail_update_succ, hhead]
        exact .snd ⟨i, t, ht, rfl⟩

namespace Task

/-- **No program runs forever.** -/
theorem acc_after (t : Task σ ι ε) : Acc After t := by
  induction t with
  | done => exact Acc.intro _ fun t' ⟨s, p, s', h⟩ => nomatch h
  | fail e => exact Acc.intro _ fun t' ⟨s, p, s', h⟩ => nomatch h
  | act f next ih =>
      refine Acc.intro _ ?_
      rintro t' ⟨s, p, s', h⟩
      rcases step_cases h with ⟨f, next, i, heq, -, -, rfl⟩ | ⟨n, st, ch, nx, hd, heq, -⟩
      · cases heq
        exact ih i s
      · cases heq
  | fork n started children next handler ihc ihn ihh =>
      have hacc := acc_stepAt ihc
      clear ihc
      induction hacc generalizing started with
      | intro children _ ih =>
          refine Acc.intro _ ?_
          rintro t' ⟨s, p, s', h⟩
          rcases step_cases h with ⟨f, next, i, heq, -⟩ | ⟨n, st, ch, nx, hd, heq, hcases⟩
          · cases heq
          · cases heq
            rcases hcases with ⟨i, q, c, -, hstep, rfl⟩ | ⟨-, -, rfl, -⟩ | ⟨i, e, -, -, rfl, -⟩
            · exact ih _ ⟨i, c, ⟨s, q, s', hstep⟩, rfl⟩ _
            · exact ihn
            · exact ihh e

/-! ## Progress -/

/-- Every atomic step accepts some input of `A`, whatever the state. -/
def Willing (A : ι → Prop) : Task σ ι ε → Prop
  | done => True
  | fail _ => True
  | act f next => (∀ s, ∃ i, A i ∧ (f i s).isSome) ∧ ∀ i s, (next i s).Willing A
  | fork _ _ children next handler =>
    (∀ i, (children i).Willing A) ∧ next.Willing A ∧ ∀ e, (handler e).Willing A

end Task

/-- The input of a step is one of `A`. -/
def Pick.Uses (A : ι → Prop) : Pick ι → Prop
  | .here i => A i
  | .child _ p => p.Uses A
  | .join => True
  | .abort _ => True

namespace Task

/-- A willing program is never stuck. -/
theorem Willing.progress {A : ι → Prop} {t : Task σ ι ε} (h : t.Willing A) (s : σ) :
    t.ended ∨ ∃ p, p.Uses A ∧ (t.step s p).isSome := by
  induction t with
  | done => exact .inl rfl
  | fail e => exact .inl rfl
  | act f next _ =>
      obtain ⟨i, hi, hsome⟩ := h.1 s
      exact .inr ⟨.here i, hi, by simpa [step] using hsome⟩
  | fork n started children next handler ihc _ _ =>
      right
      by_cases hall : ∀ i, (children i).ended = true
      · by_cases hdone : ∀ i, (children i).isDone = true
        · exact ⟨.join, trivial, by simp [step, hdone]⟩
        · obtain ⟨i, hi⟩ := not_forall.mp hdone
          rcases ended_iff.mp (hall i) with hd | ⟨e, he⟩
          · exact absurd (isDone_iff.mpr hd) hi
          · exact ⟨.abort i, trivial, by simp [step, hall, he, error?]⟩
      · obtain ⟨i, hi⟩ := not_forall.mp hall
        rcases ihc i (h.1 i) with hend | ⟨p, hp, hsome⟩
        · exact absurd hend hi
        · refine ⟨.child i p, hp, ?_⟩
          simpa [step] using hsome

/-- A willing program stays so. -/
theorem Willing.step {A : ι → Prop} {t t' : Task σ ι ε} {s s' : σ} {p : Pick ι}
    (h : t.Willing A) (hstep : t.step s p = some (t', s')) : t'.Willing A := by
  induction t generalizing p t' with
  | done => cases hstep
  | fail e => cases hstep
  | act f next _ =>
      rcases step_cases hstep with ⟨_, _, i, heq, -, -, rfl⟩ | ⟨_, _, _, _, _, heq, -⟩
      · cases heq
        exact h.2 i s
      · cases heq
  | fork n started children next handler ih _ _ =>
      rcases step_cases hstep with ⟨_, _, _, heq, -⟩ | ⟨_, _, _, _, _, heq, hcases⟩
      · cases heq
      · cases heq
        rcases hcases with ⟨i, q, c, -, hchild, rfl⟩ | ⟨-, -, rfl, -⟩ | ⟨i, e, -, -, rfl, -⟩
        · refine ⟨fun j => ?_, h.2⟩
          by_cases hj : j = i
          · subst hj
            rw [Function.update_self]
            exact ih j (h.1 j) hchild
          · rw [Function.update_of_ne hj]
            exact h.1 j
        · exact h.2.1
        · exact h.2.2 e

end Task

/-! ## Programs with a result -/

/-- A program that ends with an `α` or an error. -/
def Prog (σ ι ε α : Type) : Type := (α → Task σ ι ε) → (ε → Task σ ι ε) → Task σ ι ε

namespace Prog

instance : Monad (Prog σ ι ε) where
  pure a := fun k _ => k a
  bind m f := fun k h => m (fun a => f a k h) h

/-- A program that is left to itself. -/
def task (m : Prog σ ι ε Unit) : Task σ ι ε := m (fun _ => .done) .fail

def throw (e : ε) : Prog σ ι ε α := fun _ h => h e

/-- A pure computation of the source. -/
def ofExcept : Except ε α → Prog σ ι ε α
  | .ok a => pure a
  | .error e => throw e

/-- An atomic step that may refuse its input. -/
def draw (f : ι → σ → Option (Except ε α × σ)) : Prog σ ι ε α := fun k h =>
  .act (fun i s => (f i s).map Prod.snd) fun i s =>
    match f i s with
    | some (.ok a, _) => k a
    | some (.error e, _) => h e
    | none => .done

/-- An atomic step. -/
def call (f : ι → σ → Except ε α × σ) : Prog σ ι ε α := draw fun i s => some (f i s)

/-- An atomic step that only reads the state. -/
def read (f : σ → α) : Prog σ ι ε α := call fun _ s => (.ok (f s), s)

/-- An atomic step that only changes the state. -/
def modify (f : σ → σ) : Prog σ ι ε Unit := call fun _ s => (.ok (), f s)

/-- What a destructor does when the scope of its value is left with an error. -/
def onError (m : Prog σ ι ε α) (cleanup : Prog σ ι ε Unit) : Prog σ ι ε α := fun k h =>
  m k fun e => cleanup (fun _ => h e) fun _ => h e

/-- `let _ = m` and `if let Err(error) = m`. -/
def attempt (m : Prog σ ι ε α) : Prog σ ι ε (Except ε α) := fun k _ =>
  m (fun a => k (.ok a)) fun e => k (.error e)

/-- `Context::context`, or any other rewriting of an error. -/
def mapError (f : ε → ε) (m : Prog σ ι ε α) : Prog σ ι ε α := fun k h => m k fun e => h (f e)

/-- `par_iter().try_for_each`. -/
def parForEach (xs : List β) (f : β → Prog σ ι ε Unit) : Prog σ ι ε Unit := fun k h =>
  .fork xs.length (fun _ => false) (fun i => (f (xs.get i)).task) (k ()) h

end Prog

end CipherFS
