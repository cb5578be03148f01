import CipherFS.Framework.Race

/-!
# One program on two values of the cell

Two programs run on the same inputs, with different values in the cell. The
second one trails the first one if it does what the first one does, step by step,
for as long as the first one writes nothing, or if it fails before.
-/

namespace CipherFS

variable {σ ι ε ξ H α β γ δ : Type} {S : Shared σ H} {c c' : H} {early : Prop}

namespace Task

/-- With `c'` in the cell the second task does what the first one does with `c`,
until that writes. If `early`, it may fail before. -/
def Trails (S : Shared σ H) (c c' : H) (early : Prop) : Task σ ι ε → Task σ ι ε → Prop
  | done, t' => t' = done ∨ (early ∧ ∃ e, t' = fail e)
  | fail _, t' => ∃ e, t' = fail e
  | act f next, t' => (early ∧ ∃ e, t' = fail e) ∨
      ∃ f' next', t' = act f' next' ∧ ∀ i s s', S.get s = c → f i s = some s' →
        (S.written s).length < (S.written s').length ∨
          S.Keeps s s' ∧ f' i (S.set s c') = some (S.set s' c') ∧
            (next i s).Trails S c c' early (next' i (S.set s c'))
  | fork _ _ _ _ _, t' => early ∧ ∃ e, t' = fail e

/-- The program writes the cell without looking at it, once it has looked at it. -/
def Writer (S : Shared σ H) (t : Task σ ι ε) : Prop := t.Oblivious S ∨ ∃ n, t.ReadsAt S n

theorem Trails.of_early (hearly : early) (t : Task σ ι ε) (e : ε) :
    t.Trails S c c' early (fail e) := by
  cases t with
  | done => exact .inr ⟨hearly, e, rfl⟩
  | fail _ => exact ⟨e, rfl⟩
  | act f next => exact .inl ⟨hearly, e, rfl⟩
  | fork n started children next handler => exact ⟨hearly, e, rfl⟩

/-! ## Writes are never taken back -/

theorem Writer.step {t t' : Task σ ι ε} {s s' : σ} {p : Pick ι} (ht : t.Writer S)
    (hstep : t.step s p = some (t', s')) :
    t'.Writer S ∧ S.written s <+: S.written s' := by
  rcases step_cases hstep with ⟨f, next, i, rfl, -, hf, rfl⟩ | ⟨n, st, ch, next, hd, rfl, -⟩
  · rcases ht with ht | ⟨n, ht⟩
    · obtain ⟨hf' | hf', hnext⟩ := ht i s
      · exact ⟨.inl hnext, by rw [(hf'.keeps s' hf).2]⟩
      · exact ⟨.inl hnext, by rw [hf'.writes s' hf]; exact List.prefix_append _ _⟩
    · cases n with
      | zero =>
          obtain ⟨hkeeps, hnext⟩ := ht i s
          exact ⟨.inl hnext, by rw [(hkeeps s' hf).2]⟩
      | succ n =>
          obtain ⟨hf', hnext⟩ := ht i s
          exact ⟨.inr ⟨n, hnext⟩, by rw [(hf'.keeps s' hf).2]⟩
  · rcases ht with ht | ⟨n, ht⟩
    · exact ht.elim
    · cases n <;> exact ht.elim

theorem Writer.run {env : σ → ξ → Option σ} (henv : Race.EnvPrivate S env) {t t' : Task σ ι ε}
    {s s' : σ} {ls : List (Label ι ξ)} (ht : t.Writer S)
    (hrun : CipherFS.run (interleave env) (t, s) ls = some (t', s')) :
    S.written s <+: S.written s' := by
  refine (run_inv (I := fun x : Task σ ι ε × σ => x.1.Writer S ∧ S.written s <+: S.written x.2)
    ?_ hrun ⟨ht, List.prefix_refl _⟩).2
  rintro ⟨u, v⟩ l ⟨u', v'⟩ _ ⟨hu, hv⟩ hstep
  cases l with
  | env a =>
      obtain ⟨w, hw, heq⟩ := Option.map_eq_some_iff.mp hstep
      cases heq
      exact ⟨hu, by rwa [((henv a v).keeps v' hw).2]⟩
  | task p =>
      obtain ⟨hu', hpre⟩ := hu.step hstep
      exact ⟨hu', hv.trans hpre⟩

/-! ## A run that writes nothing -/

theorem Trails.of_ended {t t' : Task σ ι ε} (ht : t.Trails S c c' early t')
    (hend : t.ended = true) :
    t'.ended = true ∧ (t'.isDone = t.isDone ∨ early ∧ t'.isDone = false) := by
  rcases ended_iff.mp hend with rfl | ⟨e, rfl⟩
  · rcases ht with rfl | ⟨hearly, e, rfl⟩
    · exact ⟨rfl, .inl rfl⟩
    · exact ⟨rfl, .inr ⟨hearly, rfl⟩⟩
  · obtain ⟨e', rfl⟩ := ht
    exact ⟨rfl, .inl rfl⟩

/-- **A run that comes to its end without a write has its counterpart from the
other value**, on a front part of the same labels. -/
theorem Trails.run {env : σ → ξ → Option σ} (henv : Race.EnvPrivate S env) :
    ∀ {ls : List (Label ι ξ)} {t t' u : Task σ ι ε} {s v : σ}, t.Trails S c c' early t' →
      t.Writer S → S.get s = c → CipherFS.run (interleave env) (t, s) ls = some (u, v) →
      u.ended = true → S.written v = S.written s →
      ∃ ls' u' v', ls' <+: ls ∧
        CipherFS.run (interleave env) (t', S.set s c') ls' = some (u', v') ∧ S.get v' = c' ∧
        u'.ended = true ∧ (u'.isDone = u.isDone ∨ early ∧ u'.isDone = false) := by
  intro ls
  induction ls with
  | nil =>
      intro t t' u s v ht _ _ hrun hend _
      cases hrun
      exact ⟨[], t', _, List.prefix_refl _, rfl, S.get_set _ _, ht.of_ended hend⟩
  | cons l ls ih =>
      intro t t' u s v ht hwriter hs hrun hend hwritten
      rw [run_cons, Option.bind_eq_some_iff] at hrun
      obtain ⟨⟨t₁, s₁⟩, hstep, hrun⟩ := hrun
      -- the first label, and then the rest of them
      have hgo : ∀ {t₁' : Task σ ι ε}, t₁.Trails S c c' early t₁' → t₁.Writer S → S.Keeps s s₁ →
          interleave env (t', S.set s c') l = some (t₁', S.set s₁ c') →
          ∃ ls' u' v', ls' <+: l :: ls ∧
            CipherFS.run (interleave env) (t', S.set s c') ls' = some (u', v') ∧ S.get v' = c' ∧
            u'.ended = true ∧ (u'.isDone = u.isDone ∨ early ∧ u'.isDone = false) := by
        intro t₁' ht₁ hwriter₁ hkeeps hstep'
        obtain ⟨ls', u', v', hpre, hrun', hend'⟩ := ih ht₁ hwriter₁ (hkeeps.1.trans hs) hrun hend
          (hwritten.trans hkeeps.2.symm)
        refine ⟨l :: ls', u', v', (List.prefix_cons_inj l).mpr hpre, ?_, hend'⟩
        rw [run_cons, hstep']
        exact hrun'
      cases l with
      | env a =>
          obtain ⟨w, hw, heq⟩ := Option.map_eq_some_iff.mp hstep
          cases heq
          have hprivate := henv a s
          refine hgo ht hwriter (hprivate.keeps s₁ hw) ?_
          show Option.map _ _ = _
          rw [hprivate.step, hw]
          rfl
      | task p =>
          obtain ⟨hwriter₁, -⟩ := hwriter.step hstep
          have hfailed : ∀ {e}, early → t' = fail e → ∃ ls' u' v', ls' <+: .task p :: ls ∧
              CipherFS.run (interleave env) (t', S.set s c') ls' = some (u', v') ∧ S.get v' = c' ∧
              u'.ended = true ∧ (u'.isDone = u.isDone ∨ early ∧ u'.isDone = false) := by
            rintro e hearly rfl
            exact ⟨[], _, _, List.nil_prefix, rfl, S.get_set _ _, rfl, .inr ⟨hearly, rfl⟩⟩
          rcases step_cases hstep with ⟨f, next, i, rfl, rfl, hf, rfl⟩ |
            ⟨n, st, ch, next, hd, rfl, -⟩
          · rcases ht with ⟨hearly, e, he⟩ | ⟨f', next', rfl, hact⟩
            · exact hfailed hearly he
            · rcases hact i s s₁ hs hf with hmore | ⟨hkeeps, hf', hnext⟩
              · have hle := (hwriter₁.run henv hrun).length_le
                rw [hwritten] at hle
                exact absurd hmore (Nat.not_lt.mpr hle)
              · refine hgo hnext hwriter₁ hkeeps ?_
                show Option.map _ _ = _
                rw [hf']
                rfl
          · obtain ⟨hearly, e, he⟩ := ht
            exact hfailed hearly he

end Task

/-! ## Programs -/

namespace Prog

/-- What the two programs come to: related results, or errors. -/
inductive Answers (early : Prop) (R : α → β → Prop) : Except ε α → Except ε β → Prop
  | ok {a : α} {b : β} : R a b → Answers early R (.ok a) (.ok b)
  | error {e e' : ε} : Answers early R (.error e) (.error e')
  | early {r : Except ε α} {e : ε} : early → Answers early R r (.error e)

theorem Answers.refl (r : Except ε α) : Answers early Eq r r := by
  cases r with
  | ok a => exact .ok rfl
  | error e => exact .error

/-- The programs trail each other, with results in the relation. -/
def Trails (S : Shared σ H) (c c' : H) (early : Prop) (R : α → β → Prop) (m : Prog σ ι ε α)
    (m' : Prog σ ι ε β) : Prop :=
  ∀ k k', (∀ a b, R a b → (k a).Trails S c c' early (k' b)) →
    (m k .fail).Trails S c c' early (m' k' .fail)

variable {R : α → β → Prop} {m : Prog σ ι ε α} {m' : Prog σ ι ε β}

theorem Trails.task {m m' : Prog σ ι ε Unit} (hm : Trails S c c' early Eq m m') :
    m.task.Trails S c c' early m'.task := hm _ _ fun _ _ _ => .inl rfl

theorem Trails.pure {a : α} {b : β} (h : R a b) :
    Trails S c c' early R (Pure.pure a : Prog σ ι ε α) (Pure.pure b) :=
  fun _ _ hk => hk a b h

theorem Trails.throw (e e' : ε) :
    Trails S c c' early R (Prog.throw e : Prog σ ι ε α) (Prog.throw e') :=
  fun _ _ _ => ⟨e', rfl⟩

/-- A program that fails at once trails any other, if it may fail early. -/
theorem Trails.fails (hearly : early) (e : ε) :
    Trails S c c' early R m (Prog.throw e : Prog σ ι ε β) :=
  fun k _ _ => .of_early hearly (m k .fail) e

theorem Trails.bind {Q : γ → δ → Prop} {f : α → Prog σ ι ε γ} {f' : β → Prog σ ι ε δ}
    (hm : Trails S c c' early R m m')
    (hf : ∀ a b, R a b → Trails S c c' early Q (f a) (f' b)) :
    Trails S c c' early Q (m >>= f) (m' >>= f') :=
  fun k k' hk => hm _ _ fun a b hab => hf a b hab k k' hk

theorem Trails.then {Q : γ → δ → Prop} {m m' : Prog σ ι ε α} {f : α → Prog σ ι ε γ}
    {f' : α → Prog σ ι ε δ} (hm : Trails S c c' early Eq m m')
    (hf : ∀ a, Trails S c c' early Q (f a) (f' a)) :
    Trails S c c' early Q (m >>= f) (m' >>= f') :=
  hm.bind fun a _ hab => hab ▸ hf a

theorem Trails.ofExcept {r : Except ε α} {r' : Except ε β} (hr : Answers early R r r') :
    Trails S c c' early R (Prog.ofExcept r : Prog σ ι ε α) (Prog.ofExcept r') := by
  cases hr with
  | ok h => exact .pure h
  | error => exact .throw _ _
  | early hearly => exact .fails hearly _

/-- A step that writes, or that answers on the other value what it answers on the
first one. -/
theorem Trails.call {f : ι → σ → Except ε α × σ} {f' : ι → σ → Except ε β × σ}
    (hf : ∀ i s, S.get s = c → (S.written s).length < (S.written (f i s).2).length ∨
      S.Keeps s (f i s).2 ∧ (f' i (S.set s c')).2 = S.set (f i s).2 c' ∧
        Answers early R (f i s).1 (f' i (S.set s c')).1) :
    Trails S c c' early R (Prog.call f) (Prog.call f') := by
  intro k k' hk
  rw [call_eq_act, call_eq_act]
  refine .inr ⟨_, _, rfl, fun i s s' hs hs' => ?_⟩
  obtain rfl := Option.some.inj hs'
  refine (hf i s hs).imp id ?_
  rintro ⟨hkeeps, hstate, hanswer⟩
  refine ⟨hkeeps, congrArg some hstate, ?_⟩
  dsimp only
  generalize (f i s).1 = r at hanswer ⊢
  generalize (f' i (S.set s c')).1 = r' at hanswer ⊢
  cases hanswer with
  | ok h => exact hk _ _ h
  | error => exact ⟨_, rfl⟩
  | early hearly => exact .of_early hearly _ _

/-- A step that has nothing to do with the cell. -/
theorem Trails.private {f : ι → σ → Except ε α × σ} (hf : ∀ i s, PrivateCall S f i s) :
    Trails S c c' early Eq (Prog.call f) (Prog.call f) := by
  refine .call fun i s _ => .inr ?_
  have hstep := (hf i s).step c'
  refine ⟨(hf i s).keeps, by rw [hstep], ?_⟩
  rw [hstep]
  exact .refl _

end Prog

end CipherFS
