import CipherFS.Framework.Built

/-!
# Cancellable programs with a point of no return

A token that somebody can set at any time, and steps that look at it. A task is
`Revocable` while it can only fail once the token is set: it leaves this part by
a step that is refused when the token is set, its last check. A task is `Blind`
when no step of it depends on the token. A program that goes from the one part
to the other is cancelled as a whole or not at all.
-/

namespace CipherFS

variable {σ ι ε α ξ : Type} {flag : σ → Prop} {N : σ → σ → Prop} {set : σ → σ}

namespace Task

/-- Every step keeps to `N`. -/
def Quiet (N : σ → σ → Prop) : Task σ ι ε → Prop
  | done => True
  | fail _ => True
  | act f next => ∀ i s s', f i s = some s' → N s s' ∧ (next i s).Quiet N
  | fork _ _ children next handler =>
    (∀ i, (children i).Quiet N) ∧ next.Quiet N ∧ ∀ e, (handler e).Quiet N

/-- No step depends on whether the token is set. -/
def Blind (set : σ → σ) : Task σ ι ε → Prop
  | done => True
  | fail _ => True
  | act f next => ∀ i s, f i (set s) = (f i s).map set ∧ next i (set s) = next i s ∧
      (next i s).Blind set
  | fork _ _ children next handler =>
    (∀ i, (children i).Blind set) ∧ next.Blind set ∧ ∀ e, (handler e).Blind set

/-- Every step keeps to `N`; only a step that is refused when the token is set
leads on to a task that no longer looks at it, and nothing else leads to a good
end. -/
def Revocable (flag : σ → Prop) (N : σ → σ → Prop) (set : σ → σ) : Task σ ι ε → Prop
  | done => False
  | fail _ => True
  | act f next => ∀ i s s', f i s = some s' → N s s' ∧
      ((next i s).Revocable flag N set ∨ ¬flag s ∧ (next i s).Blind set)
  | fork _ _ children next handler =>
    (∀ i, (children i).Quiet N) ∧ next.Revocable flag N set ∧
      ∀ e, (handler e).Revocable flag N set

variable {t t' : Task σ ι ε} {s s' : σ} {p : Pick ι}

theorem Quiet.step (h : t.Quiet N) (hN : ∀ s, N s s) (hstep : t.step s p = some (t', s')) :
    N s s' ∧ t'.Quiet N := by
  induction t generalizing p t' with
  | done => cases hstep
  | fail e => cases hstep
  | act f next _ =>
      rcases step_cases hstep with ⟨f, next, i, heq, rfl, hf, rfl⟩ | ⟨_, _, _, _, _, heq, -⟩
      · cases heq
        exact h i s s' hf
      · cases heq
  | fork n started children next handler ih _ _ =>
      rcases step_cases hstep with ⟨_, _, _, heq, -⟩ | ⟨_, _, _, _, _, heq, hcases⟩
      · cases heq
      cases heq
      obtain ⟨hc, hn, hh⟩ := h
      rcases hcases with ⟨i, q, c, rfl, hchild, rfl⟩ | ⟨rfl, -, rfl, rfl⟩ | ⟨i, e, rfl, -, rfl, rfl⟩
      · obtain ⟨hNs, hq⟩ := ih i (hc i) hchild
        refine ⟨hNs, fun j => ?_, hn, hh⟩
        by_cases hj : j = i
        · subst hj
          rwa [Function.update_self]
        · rw [Function.update_of_ne hj]
          exact hc j
      · exact ⟨hN _, hn⟩
      · exact ⟨hN _, hh e⟩

/-- One step out of a revocable task. -/
theorem Revocable.step (h : t.Revocable flag N set) (hN : ∀ s, N s s)
    (hstep : t.step s p = some (t', s')) :
    N s s' ∧ (t'.Revocable flag N set ∨ ¬flag s ∧ t'.Blind set) := by
  cases t with
  | done => cases hstep
  | fail e => cases hstep
  | act f next =>
      rcases step_cases hstep with ⟨f, next, i, heq, rfl, hf, rfl⟩ | ⟨_, _, _, _, _, heq, -⟩
      · cases heq
        exact h i s s' hf
      · cases heq
  | fork n started children next handler =>
      rcases step_cases hstep with ⟨_, _, _, heq, -⟩ | ⟨_, _, _, _, _, heq, hcases⟩
      · cases heq
      cases heq
      obtain ⟨hc, hn, hh⟩ := h
      rcases hcases with ⟨i, q, c, rfl, hchild, rfl⟩ | ⟨rfl, -, rfl, rfl⟩ | ⟨i, e, rfl, -, rfl, rfl⟩
      · obtain ⟨hNs, hq⟩ := Quiet.step (hc i) hN hchild
        refine ⟨hNs, .inl ⟨fun j => ?_, hn, hh⟩⟩
        by_cases hj : j = i
        · subst hj
          rwa [Function.update_self]
        · rw [Function.update_of_ne hj]
          exact hc j
      · exact ⟨hN _, .inl hn⟩
      · exact ⟨hN _, .inl (hh e)⟩

/-- A blind task takes the same step whether the token is set or not. -/
theorem Blind.step (h : t.Blind set) (p : Pick ι) (s : σ) :
    t.step (set s) p = (t.step s p).map (fun r => (r.1, set r.2)) ∧
      ∀ r, t.step s p = some r → r.1.Blind set := by
  induction t generalizing p with
  | done =>
      refine ⟨rfl, ?_⟩
      intro r hr
      cases hr
  | fail e =>
      refine ⟨rfl, ?_⟩
      intro r hr
      cases hr
  | act f next _ =>
      cases p with
      | here i =>
          obtain ⟨hf, hnext, hblind⟩ := h i s
          constructor
          · show (f i (set s)).map _ = ((f i s).map _).map _
            rw [hf, hnext, Option.map_map, Option.map_map]
            rfl
          · intro r hr
            obtain ⟨s', -, rfl⟩ := Option.map_eq_some_iff.mp hr
            exact hblind
      | child _ _ =>
          refine ⟨rfl, ?_⟩
          intro r hr
          cases hr
      | join =>
          refine ⟨rfl, ?_⟩
          intro r hr
          cases hr
      | abort _ =>
          refine ⟨rfl, ?_⟩
          intro r hr
          cases hr
  | fork n started children next handler ih _ _ =>
      obtain ⟨hc, hn, hh⟩ := h
      cases p with
      | here i =>
          refine ⟨rfl, ?_⟩
          intro r hr
          cases hr
      | child i q =>
          by_cases hi : i < n
          · obtain ⟨hstep, hblind⟩ := ih ⟨i, hi⟩ (hc ⟨i, hi⟩) q
            constructor
            · simp only [Task.step, dif_pos hi, hstep, Option.map_map]
              rfl
            · intro r hr
              simp only [Task.step, dif_pos hi] at hr
              obtain ⟨c, hcs, rfl⟩ := Option.map_eq_some_iff.mp hr
              refine ⟨fun j => ?_, hn, hh⟩
              by_cases hj : j = ⟨i, hi⟩
              · subst hj
                rw [Function.update_self]
                exact hblind c hcs
              · rw [Function.update_of_ne hj]
                exact hc j
          · simp [Task.step, hi]
      | join =>
          by_cases hall : ∀ i, (children i).isDone = true
          · simp only [Task.step, if_pos hall, Option.map_some, Option.some.injEq, true_and]
            rintro r rfl
            exact hn
          · simp only [Task.step, if_neg hall, Option.map_none, true_and]
            intro r hr
            cases hr
      | abort i =>
          by_cases hi : i < n
          · by_cases hall : ∀ j, started j → (children j).ended
            · cases he : (children ⟨i, hi⟩).error? with
              | none => simp [Task.step, hi, he]
              | some e => simp [Task.step, hi, he, hh e]
            · simp [Task.step, hi, hall]
          · simp [Task.step, hi]

end Task

/-! ## Runs -/

section Runs

variable {env : σ → ξ → Option σ} {labels : List (Label ι ξ)} {t t' : Task σ ι ε} {s s' : σ}

/-- What every step of a task keeps, and the environment in this run, stays. -/
theorem Task.Quiet.run {I : σ → Prop} (h : t.Quiet N) (hN : ∀ s, N s s) (hs : I s)
    (hkeep : ∀ s s', N s s' → I s → I s')
    (henv : ∀ s a s', .env a ∈ labels → env s a = some s' → I s → I s')
    (hrun : CipherFS.run (interleave env) (t, s) labels = some (t', s')) : I s' := by
  refine (run_inv (I := fun c : Task σ ι ε × σ => c.1.Quiet N ∧ I c.2) ?_ hrun ⟨h, hs⟩).2
  rintro ⟨m, u⟩ l ⟨m', u'⟩ hl ⟨hm, hu⟩ hstep
  cases l with
  | task p =>
      obtain ⟨hNu, hm'⟩ := hm.step hN hstep
      exact ⟨hm', hkeep u u' hNu hu⟩
  | env a =>
      obtain ⟨v, hv, heq⟩ := Option.map_eq_some_iff.mp hstep
      cases heq
      exact ⟨hm, henv _ a _ hl hv hu⟩

/-- **A task that is revocable stays so once the token is set**, and what every
step and the environment keep stays as it is. -/
theorem Task.Revocable.run {I : σ → Prop} (h : t.Revocable flag N set) (hN : ∀ s, N s s)
    (hflag : flag s) (hs : I s) (hkeep : ∀ s s', N s s' → flag s → I s → flag s' ∧ I s')
    (henv : ∀ s a s', env s a = some s' → flag s → I s → flag s' ∧ I s')
    (hrun : CipherFS.run (interleave env) (t, s) labels = some (t', s')) :
    t'.Revocable flag N set ∧ flag s' ∧ I s' := by
  refine run_inv (I := fun c : Task σ ι ε × σ => c.1.Revocable flag N set ∧ flag c.2 ∧ I c.2)
    ?_ hrun ⟨h, hflag, hs⟩
  rintro ⟨m, u⟩ l ⟨m', u'⟩ _ ⟨hm, hu, hI⟩ hstep
  cases l with
  | task p =>
      obtain ⟨hNu, hm' | ⟨hnot, -⟩⟩ := hm.step hN hstep
      · exact ⟨hm', hkeep u u' hNu hu hI⟩
      · exact absurd hu hnot
  | env a =>
      obtain ⟨v, hv, heq⟩ := Option.map_eq_some_iff.mp hstep
      cases heq
      exact ⟨hm, henv _ _ _ hv hu hI⟩

/-- **Every moment of a run is before the point of no return or after it.** What
every step before it keeps holds as long as the run is before it. -/
theorem Task.Revocable.dichotomy {I : σ → Prop} (h : t.Revocable flag N set) (hN : ∀ s, N s s)
    (hs : I s) (hkeep : ∀ s s', N s s' → I s → I s')
    (henv : ∀ s a s', env s a = some s' → I s → I s')
    (hrun : CipherFS.run (interleave env) (t, s) labels = some (t', s')) :
    (t'.Revocable flag N set ∧ I s') ∨ t'.Blind set := by
  refine run_inv (I := fun c : Task σ ι ε × σ => (c.1.Revocable flag N set ∧ I c.2) ∨
    c.1.Blind set) ?_ hrun (.inl ⟨h, hs⟩)
  rintro ⟨m, u⟩ l ⟨m', u'⟩ _ hm hstep
  cases l with
  | task p =>
      rcases hm with ⟨hm, hu⟩ | hm
      · obtain ⟨hNu, hm' | ⟨-, hm'⟩⟩ := hm.step hN hstep
        · exact .inl ⟨hm', hkeep u u' hNu hu⟩
        · exact .inr hm'
      · exact .inr ((hm.step p u).2 _ hstep)
  | env a =>
      obtain ⟨v, hv, heq⟩ := Option.map_eq_some_iff.mp hstep
      cases heq
      exact hm.imp (fun hm => ⟨hm.1, henv _ _ _ hv hm.2⟩) id

/-- The labels of a run that are not cancellations. -/
def dropCancels (isCancel : ξ → Bool) (labels : List (Label ι ξ)) : List (Label ι ξ) :=
  labels.filter fun
    | .task _ => true
    | .env a => !isCancel a

variable {isCancel : ξ → Bool}

/-- A run of a blind task with the token set at the start needs no cancellation. -/
theorem Task.Blind.run_set (hset : ∀ s, set (set s) = set s)
    (henv : ∀ s a, isCancel a = false → env (set s) a = (env s a).map set)
    (hcancel : ∀ s a s', isCancel a = true → env s a = some s' → s' = set s) :
    ∀ {labels : List (Label ι ξ)} {t : Task σ ι ε} {s : σ} {c : Task σ ι ε × σ}, t.Blind set →
      CipherFS.run (interleave env) (t, s) labels = some c →
      CipherFS.run (interleave env) (t, set s) (dropCancels isCancel labels) =
        some (c.1, set c.2) := by
  intro labels
  induction labels with
  | nil =>
      intro t s c _ hrun
      obtain rfl : (t, s) = c := Option.some.inj hrun
      rfl
  | cons l rest ih =>
      intro t s c ht hrun
      rw [run_cons, Option.bind_eq_some_iff] at hrun
      obtain ⟨⟨m, u⟩, hstep, hrest⟩ := hrun
      cases l with
      | task p =>
          obtain ⟨heq, hblind⟩ := ht.step p s
          have hm : m.Blind set := hblind _ hstep
          rw [dropCancels, List.filter_cons_of_pos rfl, run_cons]
          show ((t.step (set s) p).bind _) = _
          rw [heq, show t.step s p = some (m, u) from hstep]
          exact ih hm hrest
      | env a =>
          obtain ⟨v, hv, heq⟩ := Option.map_eq_some_iff.mp hstep
          cases heq
          cases ha : isCancel a with
          | true =>
              obtain rfl := hcancel s a u ha hv
              rw [dropCancels, List.filter_cons_of_neg (by simp [ha])]
              have hgo := ih ht hrest
              rwa [hset] at hgo
          | false =>
              rw [dropCancels, List.filter_cons_of_pos (by simp [ha]), run_cons]
              show ((Option.map (fun s => (t, s)) (env (set s) a)).bind _) = _
              rw [henv s a ha, hv]
              exact ih ht hrest

/-- **Two runs of a blind task that differ only in cancellations end in the same
way**, apart from the token. -/
theorem Task.Blind.run_eq (h : t.Blind set) (hset : ∀ s, set (set s) = set s)
    (henv : ∀ s a, isCancel a = false → env (set s) a = (env s a).map set)
    (hcancel : ∀ s a s', isCancel a = true → env s a = some s' → s' = set s)
    {ls₁ ls₂ : List (Label ι ξ)} {c₁ c₂ : Task σ ι ε × σ}
    (hlabels : dropCancels isCancel ls₁ = dropCancels isCancel ls₂)
    (h₁ : CipherFS.run (interleave env) (t, s) ls₁ = some c₁)
    (h₂ : CipherFS.run (interleave env) (t, s) ls₂ = some c₂) :
    c₁.1 = c₂.1 ∧ set c₁.2 = set c₂.2 := by
  have h₁' := Task.Blind.run_set hset henv hcancel h h₁
  have h₂' := Task.Blind.run_set hset henv hcancel h h₂
  rw [hlabels, h₂', Option.some.injEq, Prod.mk.injEq] at h₁'
  exact ⟨h₁'.1.symm, h₁'.2.symm⟩

end Runs

/-! ## Programs -/

namespace Prog.Yields

variable {D : Discipline σ ι ε} {m : Prog σ ι ε α} {V : α → Prop}

/-- A program whose steps keep to `N` is quiet in front of what is. -/
theorem quiet (hm : Yields D V m)
    (hgood : ∀ {γ : Type} {f : ι → σ → Option (Except ε γ × σ)}, D.good f → ∀ i s r s',
      f i s = some (r, s') → N s s') {k : α → Task σ ι ε} {h : ε → Task σ ι ε}
    (hk : ∀ a, V a → (k a).Quiet N) (hh : ∀ e, (h e).Quiet N) : (m k h).Quiet N := by
  have hdraw : ∀ {γ : Type} {f : ι → σ → Option (Except ε γ × σ)} {U : γ → Prop}, D.good f →
      (∀ i s a s', f i s = some (.ok a, s') → U a) → ∀ k h,
      (∀ a, U a → (k a).Quiet N) → (∀ e, (h e).Quiet N) → (Prog.draw f k h).Quiet N := by
    intro γ f U hf hU k h hk hh i s s' hs
    obtain ⟨⟨r, s''⟩, hr, rfl⟩ := Option.map_eq_some_iff.mp hs
    refine ⟨hgood hf i s r s'' hr, ?_⟩
    simp only [hr]
    cases r with
    | ok a => exact hk a (hU i s a s'' hr)
    | error e => exact hh e
  exact (hm.closed (P := Task.Quiet N) (C := Task.Quiet N) trivial (fun _ => trivial) hdraw hdraw
    (fun _ _ _ _ _ hc hn hd => ⟨hc, hn, hd⟩) (fun _ _ _ _ _ hc hn hd => ⟨hc, hn, hd⟩)).1 k h hk hh

/-- A program whose steps keep to `N` is revocable in front of what is. -/
theorem revocable (hm : Yields D V m)
    (hgood : ∀ {γ : Type} {f : ι → σ → Option (Except ε γ × σ)}, D.good f → ∀ i s r s',
      f i s = some (r, s') → N s s') {k : α → Task σ ι ε} {h : ε → Task σ ι ε}
    (hk : ∀ a, V a → (k a).Revocable flag N set) (hh : ∀ e, (h e).Revocable flag N set) :
    (m k h).Revocable flag N set := by
  refine (hm.closed (P := Task.Revocable flag N set) (C := Task.Quiet N) trivial
    (fun _ => trivial) ?_ ?_ (fun _ _ _ _ _ hc hn hd => ⟨hc, hn, hd⟩)
    (fun _ _ _ _ _ hc hn hd => ⟨hc, hn, hd⟩)).1 k h hk hh
  · intro γ f U hf hU k h hk hh i s s' hs
    obtain ⟨⟨r, s''⟩, hr, rfl⟩ := Option.map_eq_some_iff.mp hs
    refine ⟨hgood hf i s r s'' hr, .inl ?_⟩
    simp only [hr]
    cases r with
    | ok a => exact hk a (hU i s a s'' hr)
    | error e => exact hh e
  · intro γ f U hf hU k h hk hh i s s' hs
    obtain ⟨⟨r, s''⟩, hr, rfl⟩ := Option.map_eq_some_iff.mp hs
    refine ⟨hgood hf i s r s'' hr, ?_⟩
    simp only [hr]
    cases r with
    | ok a => exact hk a (hU i s a s'' hr)
    | error e => exact hh e

/-- A program whose steps do not depend on the token is blind in front of what is. -/
theorem blind (hm : Yields D V m)
    (hgood : ∀ {γ : Type} {f : ι → σ → Option (Except ε γ × σ)}, D.good f → ∀ i s,
      f i (set s) = (f i s).map fun r => (r.1, set r.2)) {k : α → Task σ ι ε}
    {h : ε → Task σ ι ε} (hk : ∀ a, V a → (k a).Blind set) (hh : ∀ e, (h e).Blind set) :
    (m k h).Blind set := by
  have hdraw : ∀ {γ : Type} {f : ι → σ → Option (Except ε γ × σ)} {U : γ → Prop}, D.good f →
      (∀ i s a s', f i s = some (.ok a, s') → U a) → ∀ k h,
      (∀ a, U a → (k a).Blind set) → (∀ e, (h e).Blind set) → (Prog.draw f k h).Blind set := by
    intro γ f U hf hU k h hk hh i s
    refine ⟨?_, ?_, ?_⟩
    · simp only [hgood hf i s, Option.map_map]
      rfl
    · simp only [hgood hf i s]
      rcases f i s with _ | ⟨r | r, s'⟩ <;> rfl
    · rcases hr : f i s with _ | ⟨r | r, s'⟩
      · simp only [hr]
        trivial
      · simp only [hr]
        exact hh r
      · simp only [hr]
        exact hk r (hU i s r s' hr)
  exact (hm.closed (P := Task.Blind set) (C := Task.Blind set) trivial (fun _ => trivial) hdraw
    hdraw (fun _ _ _ _ _ hc hn hd => ⟨hc, hn, hd⟩) (fun _ _ _ _ _ hc hn hd => ⟨hc, hn, hd⟩)).1
    k h hk hh

end Prog.Yields

end CipherFS
