import CipherFS.Framework.RelyGuarantee

/-!
# Programs without parallel loops, in one environment

A list of labels is an environment: what the steps are answered and what happens
between them. A sequential program consumes a front part of it and comes to a
result, whatever the program that goes on with the result; so two programs with
a common beginning can be compared in one environment.
-/

namespace CipherFS

variable {σ ι ξ ε α β O : Type} {env : σ → ξ → Option σ}

/-! ## Ends -/

/-- In this environment the task ends with the error. -/
def Task.Fails (env : σ → ξ → Option σ) (t : Task σ ι ε) (s : σ) (ls : List (Label ι ξ))
    (e : ε) (s' : σ) : Prop :=
  ∃ n, run (interleave env) (t, s) (ls.take n) = some (.fail e, s')

/-- After its end a task takes no steps. -/
theorem Task.run_fail {e : ε} {obs : σ → O} (hobs : ∀ s a s', env s a = some s' → obs s' = obs s)
    {ls : List (Label ι ξ)} {s : σ} {c : Task σ ι ε × σ}
    (h : run (interleave env) (.fail e, s) ls = some c) : c.1 = .fail e ∧ obs c.2 = obs s := by
  refine run_inv (I := fun c : Task σ ι ε × σ => c.1 = .fail e ∧ obs c.2 = obs s) ?_ h ⟨rfl, rfl⟩
  rintro ⟨t, u⟩ l ⟨t', u'⟩ _ ⟨ht, hu⟩ hstep
  obtain rfl : t = .fail e := ht
  cases l with
  | task p => cases hstep
  | env a =>
      obtain ⟨v, hv, heq⟩ := Option.map_eq_some_iff.mp hstep
      cases heq
      exact ⟨rfl, (hobs _ _ _ hv).trans hu⟩

/-- After its end a task is the same. -/
theorem Task.run_failed {e : ε} {ls : List (Label ι ξ)} {s : σ} {c : Task σ ι ε × σ}
    (h : run (interleave env) (.fail e, s) ls = some c) : c.1 = .fail e := by
  have hobs : ∀ s a s', env s a = some s' → (fun _ : σ => ()) s' = (fun _ : σ => ()) s :=
    fun _ _ _ _ => rfl
  exact (Task.run_fail hobs h).1

theorem Task.run_done {ls : List (Label ι ξ)} {s : σ} {c : Task σ ι ε × σ}
    (h : run (interleave env) (.done, s) ls = some c) : c.1 = .done := by
  refine run_inv (I := fun c : Task σ ι ε × σ => c.1 = .done) ?_ h rfl
  rintro ⟨t, u⟩ l ⟨t', u'⟩ _ ht hstep
  obtain rfl : t = .done := ht
  cases l with
  | task p => cases hstep
  | env a =>
      obtain ⟨v, hv, heq⟩ := Option.map_eq_some_iff.mp hstep
      cases heq
      rfl

/-- Only the environment goes on after the end, in the same way beside any other
task. -/
theorem Task.run_fail_env {e : ε} : ∀ {ls : List (Label ι ξ)} {s : σ} {c : Task σ ι ε × σ},
    run (interleave env) (.fail e, s) ls = some c →
    (∀ l ∈ ls, ∃ a, l = .env a) ∧ ∀ t : Task σ ι ε, run (interleave env) (t, s) ls = some (t, c.2) := by
  intro ls
  induction ls with
  | nil =>
      intro s c h
      obtain rfl : (.fail e, s) = c := Option.some.inj h
      constructor
      · intro l hl
        cases hl
      · intro t
        rfl
  | cons l rest ih =>
      intro s c h
      rw [run_cons, Option.bind_eq_some_iff] at h
      obtain ⟨c', hstep, hrest⟩ := h
      cases l with
      | task p => cases hstep
      | env a =>
          obtain ⟨u, hu, rfl⟩ := Option.map_eq_some_iff.mp hstep
          obtain ⟨hlabels, htask⟩ := ih hrest
          refine ⟨List.forall_mem_cons.mpr ⟨⟨a, rfl⟩, hlabels⟩, fun t => ?_⟩
          rw [run_cons]
          show ((Option.map (fun s => (t, s)) (env s a)).bind _) = _
          rw [hu]
          exact htask t

/-- In one environment a task ends in one way. -/
theorem Task.Fails.unique {t : Task σ ι ε} {s s₁ s₂ : σ} {ls : List (Label ι ξ)} {e₁ e₂ : ε}
    {obs : σ → O} (hobs : ∀ s a s', env s a = some s' → obs s' = obs s)
    (h₁ : t.Fails env s ls e₁ s₁) (h₂ : t.Fails env s ls e₂ s₂) : e₁ = e₂ ∧ obs s₁ = obs s₂ := by
  obtain ⟨n₁, h₁⟩ := h₁
  obtain ⟨n₂, h₂⟩ := h₂
  have hgo : ∀ {e e' : ε} {u u' : σ} {n m : Nat}, n ≤ m →
      run (interleave env) (t, s) (ls.take n) = some (.fail e, u) →
      run (interleave env) (t, s) (ls.take m) = some (.fail e', u') → e = e' ∧ obs u = obs u' := by
    intro e e' u u' n m hle hn hm
    have hsplit : ls.take m = ls.take n ++ (ls.take m).drop n := by
      conv_lhs => rw [← List.take_append_drop n (ls.take m)]
      rw [List.take_take, Nat.min_eq_left hle]
    rw [hsplit] at hm
    obtain ⟨c, hc, hrest⟩ := exists_run_of_append hm
    rw [hn] at hc
    cases hc
    obtain ⟨hfail, hu⟩ := Task.run_fail hobs hrest
    cases hfail
    exact ⟨rfl, hu.symm⟩
  rcases Nat.le_total n₁ n₂ with hle | hle
  · exact hgo hle h₁ h₂
  · obtain ⟨he, hu⟩ := hgo hle h₂ h₁
    exact ⟨he.symm, hu.symm⟩

namespace Prog

/-! ## Executions -/

/-- How a program goes on from a result. -/
def resume (k : α → Task σ ι ε) (h : ε → Task σ ι ε) : Except ε α → Task σ ι ε
  | .ok a => k a
  | .error e => h e

/-- The labels take the program to a result. -/
def Executes (env : σ → ξ → Option σ) (m : Prog σ ι ε α) (s : σ) (ls : List (Label ι ξ))
    (r : Except ε α) (s' : σ) : Prop :=
  ∀ k h rest, run (interleave env) (m k h, s) (ls ++ rest) =
    run (interleave env) (resume k h r, s') rest

/-- Every run with inputs of `A` that comes to an end passes through a result as
`Q` describes it. -/
def Completes (env : σ → ξ → Option σ) (A : ι → Prop) (m : Prog σ ι ε α)
    (Q : σ → Except ε α → σ → Prop) : Prop :=
  ∀ k h s (ls : List (Label ι ξ)) c, (∀ l ∈ ls, l.Uses A fun _ => True) →
    run (interleave env) (m k h, s) ls = some c → c.1.ended = true →
    ∃ ls₁ ls₂ r s', ls = ls₁ ++ ls₂ ∧ Executes env m s ls₁ r s' ∧ Q s r s'

theorem Executes.pure (a : α) (s : σ) :
    Executes (ι := ι) (ε := ε) env (Pure.pure a) s [] (.ok a) s := fun _ _ _ => rfl

theorem Executes.bind_ok {m : Prog σ ι ε α} {f : α → Prog σ ι ε β} {s u s' : σ} {a : α}
    {ls ls' : List (Label ι ξ)} {r : Except ε β} (hm : Executes env m s ls (.ok a) u)
    (hf : Executes env (f a) u ls' r s') : Executes env (m >>= f) s (ls ++ ls') r s' := by
  intro k h rest
  rw [List.append_assoc]
  exact (hm _ _ _).trans (hf k h rest)

theorem Executes.bind_error {m : Prog σ ι ε α} {f : α → Prog σ ι ε β} {s s' : σ} {e : ε}
    {ls : List (Label ι ξ)} (hm : Executes env m s ls (.error e) s') :
    Executes env (m >>= f) s ls (.error e) s' :=
  fun _ _ _ => hm _ _ _

/-- A result that is only changed. -/
theorem Executes.map {m : Prog σ ι ε α} {f : α → β} {s s' : σ} {a : α} {ls : List (Label ι ξ)}
    (h : m.Executes env s ls (.ok a) s') :
    (m >>= fun a => (Pure.pure (f a) : Prog σ ι ε β)).Executes env s ls (.ok (f a)) s' := by
  rw [← List.append_nil ls]
  exact h.bind_ok (Executes.pure (f a) s')

theorem Executes.ofExcept (r : Except ε α) (s : σ) :
    Executes (ι := ι) env (Prog.ofExcept r) s [] r s := by
  intro k h rest
  cases r <;> rfl

theorem Executes.call {f : ι → σ → Except ε α × σ} {s : σ} (i : ι) :
    Executes env (Prog.call f) s [.task (.here i)] (f i s).1 (f i s).2 := by
  intro k h rest
  show ((Task.step (Prog.call f k h) s (.here i)).bind fun c => run (interleave env) c rest) = _
  rcases hf : f i s with ⟨r, s'⟩
  cases r <;> simp [Prog.call, Prog.draw, Task.step, hf, resume]

theorem Executes.call_eq {f : ι → σ → Except ε α × σ} {s s' : σ} {i : ι} {r : Except ε α}
    (h : f i s = (r, s')) : Executes env (Prog.call f) s [.task (.here i)] r s' := by
  have hcall : Executes env (Prog.call f) s [.task (.here i)] (f i s).1 (f i s).2 := .call i
  rwa [h] at hcall

theorem Executes.after_env {m : Prog σ ι ε α} {s u s' : σ} {a : ξ} {ls : List (Label ι ξ)}
    {r : Except ε α} (ha : env s a = some u) (h : Executes env m u ls r s') :
    Executes env m s (.env a :: ls) r s' := by
  intro k hd rest
  show ((Option.map (fun s => (m k hd, s)) (env s a)).bind fun c => run (interleave env) c _) = _
  rw [ha]
  exact h k hd rest

/-! ## Sequential programs -/

variable {A : ι → Prop}

theorem Completes.conseq {m : Prog σ ι ε α} {Q Q' : σ → Except ε α → σ → Prop}
    (h : Completes env A m Q) (hQ : ∀ s r s', Q s r s' → Q' s r s') : Completes env A m Q' := by
  intro k hd s ls c hA hrun hend
  obtain ⟨ls₁, ls₂, r, s', hls, hexec, hq⟩ := h k hd s ls c hA hrun hend
  exact ⟨ls₁, ls₂, r, s', hls, hexec, hQ s r s' hq⟩

theorem Completes.ofExcept (r : Except ε α) :
    Completes env A (Prog.ofExcept r) fun s r' s' => r' = r ∧ s' = s :=
  fun _ _ s ls _ _ _ _ => ⟨[], ls, r, s, rfl, .ofExcept r s, rfl, rfl⟩

theorem Completes.pure (a : α) :
    Completes (ε := ε) env A (Pure.pure a) fun s r s' => r = .ok a ∧ s' = s :=
  fun _ _ s ls _ _ _ _ => ⟨[], ls, .ok a, s, rfl, .pure a s, rfl, rfl⟩

theorem Completes.throw (e : ε) :
    Completes (α := α) env A (Prog.throw e) fun s r s' => r = .error e ∧ s' = s :=
  .ofExcept (.error e)

/-- The environment alone leads from one state to the other. -/
def EnvReaches (env : σ → ξ → Option σ) (s u : σ) : Prop := ∃ as, run env s as = some u

theorem EnvReaches.obs_eq {obs : σ → O} (hobs : ∀ s a s', env s a = some s' → obs s' = obs s)
    {s u : σ} (h : EnvReaches env s u) : obs u = obs s := by
  obtain ⟨as, has⟩ := h
  exact run_inv (I := fun v => obs v = obs s) (fun _ _ _ _ hm hstep => (hobs _ _ _ hstep).trans hm)
    has rfl

theorem Completes.call (f : ι → σ → Except ε α × σ) :
    Completes env A (Prog.call f) fun s r s' =>
      ∃ i u, A i ∧ EnvReaches env s u ∧ f i u = (r, s') := by
  intro k h s ls
  induction ls generalizing s with
  | nil =>
      intro c _ hrun hend
      obtain rfl : (Prog.call f k h, s) = c := Option.some.inj hrun
      cases hend
  | cons l rest ih =>
      intro c hA hrun hend
      rw [run_cons, Option.bind_eq_some_iff] at hrun
      obtain ⟨c', hstep, hrest⟩ := hrun
      rw [List.forall_mem_cons] at hA
      cases l with
      | env a =>
          obtain ⟨u, hu, rfl⟩ := Option.map_eq_some_iff.mp hstep
          obtain ⟨ls₁, ls₂, r, s', rfl, hexec, i, w, hi, ⟨as, has⟩, hf⟩ := ih u c hA.2 hrest hend
          refine ⟨.env a :: ls₁, ls₂, r, s', rfl, hexec.after_env hu, i, w, hi, ⟨a :: as, ?_⟩, hf⟩
          rw [run_cons, hu]
          exact has
      | task p =>
          cases p with
          | here i =>
              exact ⟨[.task (.here i)], rest, (f i s).1, (f i s).2, rfl, .call i, i, s, hA.1,
                ⟨[], rfl⟩, rfl⟩
          | child _ _ => cases hstep
          | join => cases hstep
          | abort _ => cases hstep

theorem Completes.bind {m : Prog σ ι ε α} {f : α → Prog σ ι ε β}
    {Q : σ → Except ε α → σ → Prop} {S : α → σ → Except ε β → σ → Prop}
    (hm : Completes env A m Q) (hf : ∀ a, Completes env A (f a) (S a)) :
    Completes env A (m >>= f) fun s r s' =>
      (∃ e, r = .error e ∧ Q s (.error e) s') ∨ ∃ a u, Q s (.ok a) u ∧ S a u r s' := by
  intro k h s ls c hA hrun hend
  obtain ⟨ls₁, ls₂, r, u, rfl, hexec, hq⟩ := hm (fun a => f a k h) h s ls c hA hrun hend
  cases r with
  | error e => exact ⟨ls₁, ls₂, .error e, u, rfl, hexec.bind_error, .inl ⟨e, rfl, hq⟩⟩
  | ok a =>
      have hrest : run (interleave env) (f a k h, u) ls₂ = some c :=
        (hexec _ _ _).symm.trans hrun
      obtain ⟨ls₃, ls₄, r', s', rfl, hexec', hs⟩ := hf a k h u ls₂ c
        (fun l hl => hA l (List.mem_append_right _ hl)) hrest hend
      exact ⟨ls₁ ++ ls₃, ls₄, r', s', (List.append_assoc ..).symm, hexec.bind_ok hexec',
        .inr ⟨a, u, hq, hs⟩⟩

/-- What follows a program that always fails does not matter. -/
theorem Completes.bind_fails {m : Prog σ ι ε α} (f : α → Prog σ ι ε β)
    {Q : σ → Except ε α → σ → Prop} (hm : Completes env A m Q) (hQ : ∀ s a s', ¬Q s (.ok a) s') :
    Completes env A (m >>= f) fun s r s' => ∃ e, r = .error e ∧ Q s (.error e) s' := by
  intro k h s ls c hA hrun hend
  obtain ⟨ls₁, ls₂, r, u, rfl, hexec, hq⟩ := hm (fun a => f a k h) h s ls c hA hrun hend
  cases r with
  | error e => exact ⟨ls₁, ls₂, .error e, u, rfl, hexec.bind_error, e, rfl, hq⟩
  | ok a => exact absurd hq (hQ _ _ _)

/-- Where the beginning of a program ends in an error, so does the program. -/
theorem Completes.fails {m : Prog σ ι ε α} {Q : σ → Except ε α → σ → Prop}
    (hm : Completes env (fun _ => True) m Q) {s s' : σ} {ls : List (Label ι ξ)} {e : ε}
    (h : (do let _ ← m; Pure.pure () : Prog σ ι ε Unit).task.Fails env s ls e s') :
    ∃ ls₁ ls₂ u, ls = ls₁ ++ ls₂ ∧ Executes env m s ls₁ (.error e) u := by
  obtain ⟨n, hrun⟩ := h
  obtain ⟨ls₁, ls₂, r, u, hls, hexec, _⟩ :=
    hm _ _ s (ls.take n) _ (fun l _ => l.uses_true) hrun rfl
  rw [hls] at hrun
  have hrest := (hexec _ _ _).symm.trans hrun
  cases r with
  | ok a => cases Task.run_done hrest
  | error e' =>
      obtain rfl : e = e' := by
        have hobs : ∀ s a s', env s a = some s' → (fun _ => () : σ → Unit) s' = () :=
          fun _ _ _ _ => rfl
        have := (Task.run_fail hobs hrest).1
        cases this
        rfl
      refine ⟨ls₁, ls₂ ++ ls.drop n, u, ?_, hexec⟩
      rw [← List.append_assoc, ← hls, List.take_append_drop]

/-- An execution that ends in an error ends the task. -/
theorem Executes.fails {m : Prog σ ι ε Unit} {s s' : σ} {ls rest : List (Label ι ξ)} {e : ε}
    (h : Executes env m s ls (.error e) s') : m.task.Fails env s (ls ++ rest) e s' := by
  refine ⟨ls.length, ?_⟩
  rw [List.take_left']
  · have := h (fun _ => .done) .fail []
    rwa [List.append_nil] at this
  · rfl

end Prog

theorem Task.Fails.of_run {t : Task σ ι ε} {s s' : σ} {ls : List (Label ι ξ)} {e : ε}
    (h : run (interleave env) (t, s) ls = some (.fail e, s')) (more : List (Label ι ξ)) :
    t.Fails env s (ls ++ more) e s' :=
  ⟨ls.length, by rwa [List.take_left' rfl]⟩

/-- A run that has come to an error. -/
theorem Task.exists_fail {c : Option (Task σ ι ε × σ)} {e : ε}
    (h : c.bind (fun c => c.1.error?) = some e) : ∃ s', c = some (.fail e, s') := by
  obtain ⟨⟨t, s'⟩, rfl, ht⟩ := Option.bind_eq_some_iff.mp h
  cases t with
  | fail e' =>
      cases ht
      exact ⟨s', rfl⟩
  | _ => cases ht

end CipherFS
