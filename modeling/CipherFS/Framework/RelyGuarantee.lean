import CipherFS.Framework.Task

/-!
# Rely and guarantee

`Safe` says of a program at a state: whatever the environment does within the
rely, and whatever inputs from `A` its steps get, every step of the program is
within the guarantee, and it can only end in a state of `Q` or fail in one of
`E`. A parallel loop is safe when each child is, with the guarantees of the
others in its rely. `Triple` is the same for a program with a result, and its
rules follow the constructors of `Prog`; an assertion that every step keeps can
be framed around any triple.
-/

namespace CipherFS

variable {σ ι ε α β ξ : Type}

/-- What the environment may do between two steps. -/
structure Rely (σ : Type) where
  rel : σ → σ → Prop
  refl : ∀ s, rel s s
  trans : ∀ {s t u}, rel s t → rel t u → rel s u

/-- The environment cannot falsify the assertion. -/
def Rely.Stable (R : Rely σ) (P : σ → Prop) : Prop := ∀ s s', P s → R.rel s s' → P s'

/-- What comes of any number of single actions. -/
def Rely.closure (r : σ → σ → Prop) : Rely σ where
  rel := Relation.ReflTransGen r
  refl _ := .refl
  trans := .trans

/-- What every single action keeps is stable. -/
theorem Rely.stable_closure {r : σ → σ → Prop} {P : σ → Prop}
    (h : ∀ s s', r s s' → P s → P s') : (closure r).Stable P := by
  intro s s' hs hrel
  induction hrel with
  | refl => exact hs
  | tail _ hstep ih => exact h _ _ hstep ih

/-- Neither the environment nor the program can falsify the assertion. -/
structure Kept (R : Rely σ) (G : σ → σ → Prop) (F : σ → Prop) : Prop where
  stable : R.Stable F
  guarded : ∀ s s', F s → G s s' → F s'

/-- The obligations of a parallel loop, apart from the safety of its parts. -/
structure Split (R : Rely σ) (G : σ → σ → Prop) (n : Nat) where
  rely : Fin n → Rely σ
  guarantee : Fin n → σ → σ → Prop
  inherit : ∀ i s s', R.rel s s' → (rely i).rel s s'
  others : ∀ i j s s', i ≠ j → guarantee j s s' → (rely i).rel s s'
  within : ∀ i s s', guarantee i s s' → G s s'

/-- A step of any of the parts. -/
def Split.any {R : Rely σ} {G : σ → σ → Prop} {n : Nat} (S : Split R G n) (s s' : σ) : Prop :=
  ∃ i, S.guarantee i s s'

namespace Task

/-- The program respects the guarantee and ends well. -/
def Safe (A : ι → Prop) : Task σ ι ε → Rely σ → (σ → σ → Prop) → (σ → Prop) →
    (ε → σ → Prop) → σ → Prop
  | done, R, _, Q, _, s => ∀ s', R.rel s s' → Q s'
  | fail e, R, _, _, E, s => ∀ s', R.rel s s' → E e s'
  | act f next, R, G, Q, E, s => ∀ s' i s'', R.rel s s' → A i → f i s' = some s'' →
      G s' s'' ∧ (next i s').Safe A R G Q E s''
  | fork n _ children next handler, R, G, Q, E, s =>
      ∃ (S : Split R G n) (F : σ → Prop) (Qc : Fin n → σ → Prop) (Ec : Fin n → ε → σ → Prop),
        Kept R S.any F ∧ F s ∧
        (∀ i, (children i).Safe A (S.rely i) (S.guarantee i) (Qc i) (Ec i) s) ∧
        (∀ s', F s' → (∀ i, Qc i s') → next.Safe A R G Q E s') ∧
        ∀ i e s', F s' → Ec i e s' → (handler e).Safe A R G Q E s'

variable {A : ι → Prop} {R : Rely σ} {G : σ → σ → Prop} {Q : σ → Prop} {E : ε → σ → Prop}
  {t t' : Task σ ι ε} {s s' : σ}

/-- The environment does not endanger a safe program. -/
theorem Safe.rely (h : t.Safe A R G Q E s) (hR : R.rel s s') : t.Safe A R G Q E s' := by
  induction t generalizing R G Q E with
  | done => exact fun u hu => h u (R.trans hR hu)
  | fail e => exact fun u hu => h u (R.trans hR hu)
  | act f next _ => exact fun u i u' hu => h u i u' (R.trans hR hu)
  | fork n started children next handler ih _ _ =>
      obtain ⟨S, F, Qc, Ec, hF, hFs, hc, hn, hh⟩ := h
      exact ⟨S, F, Qc, Ec, hF, hF.stable s s' hFs hR,
        fun i => ih i (hc i) (S.inherit i s s' hR), hn, hh⟩

/-- A step of a safe program keeps the guarantee and leaves a safe program. -/
theorem Safe.step {p : Pick ι} (h : t.Safe A R G Q E s) (hp : p.Uses A)
    (hstep : t.step s p = some (t', s')) :
    (s = s' ∨ G s s') ∧ t'.Safe A R G Q E s' := by
  induction t generalizing p t' R G Q E with
  | done => cases hstep
  | fail e => cases hstep
  | act f next _ =>
      rcases step_cases hstep with ⟨f, next, i, heq, rfl, hf, rfl⟩ | ⟨_, _, _, _, _, heq, -⟩
      · cases heq
        obtain ⟨hG, hnext⟩ := h s i s' (R.refl s) hp hf
        exact ⟨.inr hG, hnext⟩
      · cases heq
  | fork n started children next handler ih _ _ =>
      rcases step_cases hstep with ⟨_, _, _, heq, -⟩ | ⟨_, _, _, _, _, heq, hcases⟩
      · cases heq
      cases heq
      obtain ⟨S, F, Qc, Ec, hF, hFs, hc, hn, hh⟩ := h
      rcases hcases with ⟨i, q, c, rfl, hchild, rfl⟩ | ⟨rfl, hdone, rfl, rfl⟩ |
        ⟨i, e, rfl, hfail, rfl, rfl⟩
      · have hq : q.Uses A := hp
        obtain ⟨hG, hsafe⟩ := ih i (hc i) hq hchild
        refine ⟨hG.imp id (S.within i s s'), S, F, Qc, Ec, hF, ?_, fun j => ?_, hn, hh⟩
        · rcases hG with rfl | hG
          · exact hFs
          · exact hF.guarded s s' hFs ⟨i, hG⟩
        · -- the child that moved is safe by induction, the others by their rely
          by_cases hj : j = i
          · subst hj
            rw [Function.update_self]
            exact hsafe
          · rw [Function.update_of_ne hj]
            refine (hc j).rely ?_
            rcases hG with rfl | hG
            · exact (S.rely j).refl _
            · exact S.others j i s s' hj hG
      · refine ⟨.inl rfl, hn _ hFs fun i => ?_⟩
        have hsafe := hc i
        rw [hdone i] at hsafe
        exact hsafe _ ((S.rely i).refl _)
      · refine ⟨.inl rfl, hh i e _ hFs ?_⟩
        have hsafe := hc i
        rw [hfail] at hsafe
        exact hsafe _ ((S.rely i).refl _)

end Task

/-! ## Runs -/

/-- A step of the program, or one of the environment. -/
inductive Label (ι ξ : Type) where
  | task (p : Pick ι)
  | env (a : ξ)

/-- The label takes its inputs from `A` and its environment actions from `B`. -/
def Label.Uses (A : ι → Prop) (B : ξ → Prop) : Label ι ξ → Prop
  | .task p => p.Uses A
  | .env a => B a

theorem Pick.uses_true (p : Pick ι) : p.Uses fun _ => True := by
  induction p with
  | child _ _ ih => exact ih
  | _ => trivial

theorem Label.uses_true (l : Label ι ξ) : l.Uses (fun _ => True) fun _ => True := by
  cases l with
  | task p => exact p.uses_true
  | env a => trivial

/-- A program and its environment, `env`, one label at a time. -/
def interleave (env : σ → ξ → Option σ) (c : Task σ ι ε × σ) :
    Label ι ξ → Option (Task σ ι ε × σ)
  | .task p => c.1.step c.2 p
  | .env a => (env c.2 a).map fun s => (c.1, s)

section Runs

variable {A : ι → Prop} {B : ξ → Prop} {R : Rely σ} {G : σ → σ → Prop} {Q : σ → Prop}
  {E : ε → σ → Prop} {env : σ → ξ → Option σ} {t t' : Task σ ι ε} {s s' : σ}
  {labels : List (Label ι ξ)}

/-- **A safe program stays safe in every run, and keeps what its steps keep.** -/
theorem Task.Safe.run {I : σ → Prop} (h : t.Safe A R G Q E s)
    (hB : ∀ s a s', B a → env s a = some s' → R.rel s s') (hI : Kept R G I) (hs : I s)
    (hlabels : ∀ l ∈ labels, l.Uses A B)
    (hrun : CipherFS.run (interleave env) (t, s) labels = some (t', s')) :
    t'.Safe A R G Q E s' ∧ I s' := by
  refine run_inv (I := fun c : Task σ ι ε × σ => c.1.Safe A R G Q E c.2 ∧ I c.2) ?_ hrun ⟨h, hs⟩
  rintro ⟨m, u⟩ l ⟨m', u'⟩ hl ⟨hm, hu⟩ hstep
  have huses := hlabels l hl
  cases l with
  | task p =>
      obtain ⟨hG, hm'⟩ := Task.Safe.step hm huses hstep
      refine ⟨hm', ?_⟩
      rcases hG with rfl | hG
      · exact hu
      · exact hI.guarded u u' hu hG
  | env a =>
      obtain ⟨v, hv, heq⟩ := Option.map_eq_some_iff.mp hstep
      cases heq
      have hR := hB _ _ _ huses hv
      exact ⟨Task.Safe.rely hm hR, hI.stable u u' hu hR⟩

/-- **Whatever happens, a willing program has ended or can go on.** -/
theorem Task.Willing.run (h : t.Willing A)
    (hrun : CipherFS.run (interleave env) (t, s) labels = some (t', s')) :
    t'.ended ∨ ∃ p, p.Uses A ∧ (t'.step s' p).isSome := by
  refine Willing.progress (run_inv (I := fun c : Task σ ι ε × σ => c.1.Willing A) ?_ hrun h) s'
  rintro ⟨m, u⟩ l ⟨m', u'⟩ _ hm hstep
  cases l with
  | task p => exact Willing.step hm hstep
  | env a =>
      obtain ⟨v, -, heq⟩ := Option.map_eq_some_iff.mp hstep
      cases heq
      exact hm

theorem Task.Safe.of_done (h : Task.done.Safe A R G Q E s) : Q s := h s (R.refl s)

theorem Task.Safe.of_fail {e : ε} (h : (Task.fail e).Safe A R G Q E s) : E e s := h s (R.refl s)

end Runs

/-! ## Triples -/

namespace Prog

/-- From `P` the program runs to a result in `Q` or an error in `E`, within the
guarantee, and keeps every assertion that the rely and the guarantee keep. What
follows it may have a wider guarantee, `G'`. -/
def Triple (A : ι → Prop) (R : Rely σ) (G : σ → σ → Prop) (P : σ → Prop) (m : Prog σ ι ε α)
    (Q : α → σ → Prop) (E : ε → σ → Prop) : Prop :=
  ∀ G' : σ → σ → Prop, (∀ s s', G s s' → G' s s') → ∀ F, Kept R G F → ∀ k h Qf Ef,
    (∀ a s, Q a s → F s → (k a).Safe A R G' Qf Ef s) →
    (∀ e s, E e s → F s → (h e).Safe A R G' Qf Ef s) →
    ∀ s, P s → F s → (m k h).Safe A R G' Qf Ef s

/-- The assertion about a result or an error. -/
def Post (Q : α → σ → Prop) (E : ε → σ → Prop) : Except ε α → σ → Prop
  | .ok a => Q a
  | .error e => E e

variable {A : ι → Prop} {R : Rely σ} {G : σ → σ → Prop} {P P' : σ → Prop} {m : Prog σ ι ε α}
  {Q Q' : α → σ → Prop} {E E' : ε → σ → Prop}

/-- A triple for a whole program. -/
theorem Triple.safe {m : Prog σ ι ε Unit} {Q : Unit → σ → Prop} {s : σ}
    (h : Triple A R G P m Q E) (hQ : R.Stable (Q ())) (hE : ∀ e, R.Stable (E e)) (hs : P s) :
    m.task.Safe A R G (Q ()) E s := by
  refine h G (fun _ _ hG => hG) (fun _ => True) ⟨fun _ _ _ _ => trivial, fun _ _ _ _ => trivial⟩ (fun _ => .done) .fail
    (Q ()) E ?_ ?_ s hs trivial
  · exact fun _ s ha _ s' hR => hQ s s' ha hR
  · exact fun e s he _ s' hR => hE e s s' he hR

theorem Triple.conseq (h : Triple A R G P m Q E) (hP : ∀ s, P' s → P s)
    (hQ : ∀ a s, Q a s → Q' a s) (hE : ∀ e s, E e s → E' e s) : Triple A R G P' m Q' E' :=
  fun G' hG F hF k hd Qf Ef hk hh s hs hFs => h G' hG F hF k hd Qf Ef
    (fun a s ha => hk a s (hQ a s ha)) (fun e s he => hh e s (hE e s he)) s (hP s hs) hFs

/-- A guarantee may be widened. -/
theorem Triple.widen {G' : σ → σ → Prop} (h : Triple A R G P m Q E)
    (hG : ∀ s s', G s s' → G' s s') : Triple A R G' P m Q E :=
  fun G'' hG' F hF k hd Qf Ef hk hh s hs hFs => h G'' (fun s s' hs => hG' s s' (hG s s' hs)) F
    ⟨hF.stable, fun s s' hs hstep => hF.guarded s s' hs (hG s s' hstep)⟩ k hd Qf Ef hk hh s hs hFs

theorem Triple.pre (h : Triple A R G P m Q E) (hP : ∀ s, P' s → P s) : Triple A R G P' m Q E :=
  h.conseq hP (fun _ _ ha => ha) fun _ _ he => he

/-- What is known of the state may be used outside the program. -/
theorem Triple.of_forall (h : ∀ s, P s → Triple A R G (fun s' => s' = s ∧ P s') m Q E) :
    Triple A R G P m Q E :=
  fun G' hG F hF k hd Qf Ef hk hh s hs hFs =>
    h s hs G' hG F hF k hd Qf Ef hk hh s ⟨rfl, hs⟩ hFs

theorem Triple.exists {γ : Type} {P : γ → σ → Prop} (h : ∀ c, Triple A R G (P c) m Q E) :
    Triple A R G (fun s => ∃ c, P c s) m Q E :=
  fun G' hG F hF k hd Qf Ef hk hh s ⟨c, hc⟩ hFs => h c G' hG F hF k hd Qf Ef hk hh s hc hFs

theorem Triple.assume {a : Prop} (h : a → Triple A R G P m Q E) :
    Triple A R G (fun s => a ∧ P s) m Q E :=
  fun G' hG F hF k hd Qf Ef hk hh s ⟨ha, hs⟩ hFs => h ha G' hG F hF k hd Qf Ef hk hh s hs hFs

theorem Triple.unreachable (h : ∀ s, ¬P s) : Triple A R G P m Q E :=
  fun _ _ _ _ _ _ _ _ _ _ s hs _ => absurd hs (h s)

/-- Framing. -/
theorem Triple.keep {F : σ → Prop} (h : Triple A R G P m Q E) (hF : Kept R G F) :
    Triple A R G (fun s => P s ∧ F s) m (fun a s => Q a s ∧ F s) fun e s => E e s ∧ F s :=
  fun G' hG F' hF' k hd Qf Ef hk hh s hs hFs =>
    h G' hG (fun s => F s ∧ F' s)
      ⟨fun s s' hb hR => ⟨hF.stable s s' hb.1 hR, hF'.stable s s' hb.2 hR⟩,
        fun s s' hb hG => ⟨hF.guarded s s' hb.1 hG, hF'.guarded s s' hb.2 hG⟩⟩
      k hd Qf Ef (fun a s ha hb => hk a s ⟨ha, hb.1⟩ hb.2)
      (fun e s he hb => hh e s ⟨he, hb.1⟩ hb.2) s hs.1 ⟨hs.2, hFs⟩

theorem Triple.pure {a : α} (h : ∀ s, P s → Q a s) :
    Triple A R G P (Pure.pure a : Prog σ ι ε α) Q E :=
  fun _ _ _ _ _ _ _ _ hk _ s hs hFs => hk a s (h s hs) hFs

theorem Triple.throw {e : ε} (h : ∀ s, P s → E e s) :
    Triple A R G P (Prog.throw e : Prog σ ι ε α) Q E :=
  fun _ _ _ _ _ _ _ _ _ hh s hs hFs => hh e s (h s hs) hFs

theorem Triple.ofExcept {r : Except ε α} (h : ∀ s, P s → Post Q E r s) :
    Triple A R G P (Prog.ofExcept r) Q E := by
  cases r with
  | ok a => exact .pure h
  | error e => exact .throw h

theorem Triple.bind {f : α → Prog σ ι ε β} {S : β → σ → Prop} (h : Triple A R G P m Q E)
    (hf : ∀ a, Triple A R G (Q a) (f a) S E) : Triple A R G P (m >>= f) S E :=
  fun G' hG F hF k hd Qf Ef hk hh s hs hFs => h G' hG F hF _ hd Qf Ef
    (fun a s ha hFa => hf a G' hG F hF k hd Qf Ef hk hh s ha hFa) hh s hs hFs

/-- The precondition of an atomic step must be stable; what the step establishes
need not be. -/
theorem Triple.draw {f : ι → σ → Option (Except ε α × σ)} (hP : R.Stable P)
    (h : ∀ i s r s', A i → P s → f i s = some (r, s') → G s s' ∧ Post Q E r s') :
    Triple A R G P (Prog.draw f) Q E := by
  intro G' hwide F hF k hd Qf Ef hk hh s hs hFs u i u' hu hA hf
  obtain ⟨⟨r, v⟩, hr, rfl⟩ := Option.map_eq_some_iff.mp hf
  obtain ⟨hG, hpost⟩ := h i u r v hA (hP s u hs hu) hr
  refine ⟨hwide u v hG, ?_⟩
  have hFv := hF.guarded u v (hF.stable s u hFs hu) hG
  simp only [hr]
  cases r with
  | ok a => exact hk a v hpost hFv
  | error e => exact hh e v hpost hFv

theorem Triple.call {f : ι → σ → Except ε α × σ} (hP : R.Stable P)
    (h : ∀ i s, A i → P s → G s (f i s).2 ∧ Post Q E (f i s).1 (f i s).2) :
    Triple A R G P (Prog.call f) Q E :=
  .draw hP fun i s r s' hA hs hf => by
    have hpost := h i s hA hs
    rwa [Option.some.inj hf] at hpost

theorem Triple.read {f : σ → α} (hP : R.Stable P) (hG : ∀ s, P s → G s s)
    (h : ∀ s, P s → Q (f s) s) : Triple A R G P (Prog.read f : Prog σ ι ε α) Q E :=
  .call hP fun _ s _ hs => ⟨hG s hs, h s hs⟩

theorem Triple.modify {f : σ → σ} {Q : Unit → σ → Prop} (hP : R.Stable P)
    (hG : ∀ s, P s → G s (f s)) (h : ∀ s, P s → Q () (f s)) :
    Triple A R G P (Prog.modify f : Prog σ ι ε Unit) Q E :=
  .call hP fun _ s _ hs => ⟨hG s hs, h s hs⟩

theorem Triple.onError {cleanup : Prog σ ι ε Unit} (h : Triple A R G P m Q E')
    (hc : ∀ e, Triple A R G (E' e) cleanup (fun _ => E e) fun _ => E e) :
    Triple A R G P (m.onError cleanup) Q E :=
  fun G' hG F hF k _ Qf Ef hk hh s hs hFs => h G' hG F hF k _ Qf Ef hk
    (fun e s he hFe => hc e G' hG F hF _ _ Qf Ef (fun _ s hs hFs => hh e s hs hFs)
      (fun _ s hs hFs => hh e s hs hFs) s he hFe) s hs hFs

theorem Triple.attempt {Q : Except ε α → σ → Prop}
    (h : Triple A R G P m (fun a => Q (.ok a)) fun e => Q (.error e)) :
    Triple A R G P m.attempt Q E :=
  fun G' hG F hF _ _ Qf Ef hk _ s hs hFs => h G' hG F hF _ _ Qf Ef
    (fun a s ha hFa => hk (.ok a) s ha hFa) (fun e s he hFe => hk (.error e) s he hFe) s hs hFs

theorem Triple.mapError {f : ε → ε} (h : Triple A R G P m Q fun e => E (f e)) :
    Triple A R G P (m.mapError f) Q E :=
  fun G' hG F hF k _ Qf Ef hk hh s hs hFs => h G' hG F hF k _ Qf Ef hk
    (fun e s he hFe => hh (f e) s he hFe) s hs hFs

/-! ### Loops -/

/-- A sequential loop: the invariant names what has been done. -/
theorem Triple.foldlM {f : β → α → Prog σ ι ε β} {xs : List α} {b : β}
    {I : List α → β → σ → Prop}
    (h : ∀ pre a post b, xs = pre ++ a :: post →
      Triple A R G (I pre b) (f b a) (I (pre ++ [a])) E) :
    Triple A R G (I [] b) (xs.foldlM f b) (I xs) E := by
  suffices go : ∀ (todo pre : List α) (b : β), xs = pre ++ todo →
      Triple A R G (I pre b) (todo.foldlM f b) (I xs) E from go xs [] b rfl
  intro todo
  induction todo with
  | nil =>
      intro pre b hxs
      rw [List.append_nil] at hxs
      subst hxs
      exact .pure fun s hs => hs
  | cons a rest ih =>
      intro pre b hxs
      rw [List.foldlM_cons]
      exact (h pre a rest b hxs).bind fun b' => ih (pre ++ [a]) b' (by simp [hxs])

theorem Triple.forM {f : α → Prog σ ι ε Unit} {xs : List α} {I : List α → σ → Prop}
    (h : ∀ pre a post, xs = pre ++ a :: post →
      Triple A R G (I pre) (f a) (fun _ => I (pre ++ [a])) E) :
    Triple A R G (I []) (xs.forM f) (fun _ => I xs) E := by
  suffices go : ∀ (todo pre : List α), xs = pre ++ todo →
      Triple A R G (I pre) (todo.forM f) (fun _ => I xs) E from go xs [] rfl
  intro todo
  induction todo with
  | nil =>
      intro pre hxs
      rw [List.append_nil] at hxs
      subst hxs
      exact .pure fun s hs => hs
  | cons a rest ih =>
      intro pre hxs
      exact (h pre a rest hxs).bind fun _ => ih (pre ++ [a]) (by simp [hxs])

/-- A parallel loop: each child by itself, within its part of the split. -/
theorem Triple.parForEach {f : α → Prog σ ι ε Unit} {xs : List α} (S : Split R G xs.length)
    (Pc : Fin xs.length → σ → Prop) {Qc : Fin xs.length → σ → Prop}
    {Ec : Fin xs.length → ε → σ → Prop} {F : σ → Prop} {Q : Unit → σ → Prop}
    (hF : Kept R S.any F) (hPF : ∀ s, P s → F s) (hPc : ∀ i s, P s → Pc i s)
    (hc : ∀ i, Triple A (S.rely i) (S.guarantee i) (Pc i) (f (xs.get i)) (fun _ => Qc i) (Ec i))
    (hQc : ∀ i, (S.rely i).Stable (Qc i)) (hEc : ∀ i e, (S.rely i).Stable (Ec i e))
    (hQ : ∀ s, F s → (∀ i, Qc i s) → Q () s) (hE : ∀ i e s, F s → Ec i e s → E e s) :
    Triple A R G P (Prog.parForEach xs f) Q E := by
  intro G' hwide F' hF' k hd Qf Ef hk hh s hs hFs
  let S' : Split R G' xs.length :=
    { S with within := fun i s s' hG => hwide s s' (S.within i s s' hG) }
  refine ⟨S', fun s => F s ∧ F' s, Qc, Ec, ?_, ⟨hPF s hs, hFs⟩, fun i => ?_, ?_, ?_⟩
  · refine ⟨fun s s' hb hR => ⟨hF.stable s s' hb.1 hR, hF'.stable s s' hb.2 hR⟩, ?_⟩
    rintro s s' hb ⟨i, hG⟩
    exact ⟨hF.guarded s s' hb.1 ⟨i, hG⟩, hF'.guarded s s' hb.2 (S.within i s s' hG)⟩
  · exact (hc i).safe (hQc i) (hEc i) (hPc i s hs)
  · exact fun s' hb hall => hk () s' (hQ s' hb.1 hall) hb.2
  · exact fun i e s' hb he => hh e s' (hE i e s' hb.1 he) hb.2

end Prog

end CipherFS
