import CipherFS.Framework.Sequential

/-!
# Programs built from known steps

What holds of every atomic step of a program often decides what holds of the
program, wherever its steps stand. `Built` collects the steps once, former by
former; the theorems turn it into a triple, or into a property of the tree of
steps that remain.
-/

namespace CipherFS.Prog

variable {σ ι ε α β : Type}

/-- The steps that a program may take, what it may do to an error, and the errors
it may raise without a step. -/
structure Discipline (σ ι ε : Type) where
  good : {α : Type} → (ι → σ → Option (Except ε α × σ)) → Prop
  soft : (ε → ε) → Prop
  may : ε → Prop

/-- The program keeps to the discipline, and its value, if it comes to one, is in `V`. -/
inductive Yields (D : Discipline σ ι ε) : {α : Type} → (α → Prop) → Prog σ ι ε α → Prop
  | pure {α : Type} {V : α → Prop} {a : α} (h : V a) : Yields D V (Pure.pure a : Prog σ ι ε α)
  | throw {α : Type} {V : α → Prop} {e : ε} (h : D.may e) :
      Yields D V (Prog.throw e : Prog σ ι ε α)
  | draw {α : Type} {V : α → Prop} {f : ι → σ → Option (Except ε α × σ)} (h : D.good f)
      (hV : ∀ i s a s', f i s = some (.ok a, s') → V a) : Yields D V (Prog.draw f)
  | bind {α β : Type} {V : α → Prop} {W : β → Prop} {m : Prog σ ι ε α} {f : α → Prog σ ι ε β}
      (hm : Yields D V m) (hf : ∀ a, V a → Yields D W (f a)) : Yields D W (m >>= f)
  | onError {α : Type} {V : α → Prop} {m : Prog σ ι ε α} {cleanup : Prog σ ι ε Unit}
      (hm : Yields D V m) (hc : Yields D (fun _ => True) cleanup) :
      Yields D V (m.onError cleanup)
  | attempt {α : Type} {V : α → Prop} {m : Prog σ ι ε α} (hm : Yields D V m) :
      Yields D (fun r => ∀ a, r = .ok a → V a) m.attempt
  | mapError {α : Type} {V : α → Prop} {m : Prog σ ι ε α} {f : ε → ε} (hf : D.soft f)
      (hm : Yields D V m) : Yields D V (m.mapError f)
  | parForEach {β : Type} {xs : List β} {f : β → Prog σ ι ε Unit}
      (h : ∀ x ∈ xs, Yields D (fun _ => True) (f x)) :
      Yields D (fun _ => True) (Prog.parForEach xs f)
  | weaken {α : Type} {V W : α → Prop} {m : Prog σ ι ε α} (hm : Yields D V m)
      (h : ∀ a, V a → W a) : Yields D W m

/-- The program keeps to the discipline. -/
abbrev Built (D : Discipline σ ι ε) (m : Prog σ ι ε α) : Prop := Yields D (fun _ => True) m

variable {D : Discipline σ ι ε} {m : Prog σ ι ε α} {V : α → Prop}

theorem Yields.built (hm : Yields D V m) : Built D m := hm.weaken fun _ _ => trivial

/-- A discipline may be replaced by one that allows more. -/
theorem Yields.relax {D' : Discipline σ ι ε} (hm : Yields D V m)
    (hgood : ∀ {γ : Type} {f : ι → σ → Option (Except ε γ × σ)}, D.good f → D'.good f)
    (hsoft : ∀ f, D.soft f → D'.soft f) (hmay : ∀ e, D.may e → D'.may e) : Yields D' V m := by
  induction hm with
  | pure h => exact .pure h
  | throw h => exact .throw (hmay _ h)
  | draw h hV => exact .draw (hgood h) hV
  | bind _ _ ihm ihf => exact .bind ihm ihf
  | onError _ _ ihm ihc => exact .onError ihm ihc
  | attempt _ ihm => exact .attempt ihm
  | mapError h _ ihm => exact .mapError (hsoft _ h) ihm
  | parForEach _ ih => exact .parForEach ih
  | weaken _ h ihm => exact .weaken ihm h

namespace Built

theorem pure (a : α) : Built D (Pure.pure a : Prog σ ι ε α) := Yields.pure trivial

theorem call {f : ι → σ → Except ε α × σ} (h : D.good fun i s => some (f i s)) :
    Built D (Prog.call f) := Yields.draw h fun _ _ _ _ _ => trivial

theorem bind {f : α → Prog σ ι ε β} (hm : Built D m) (hf : ∀ a, Built D (f a)) :
    Built D (m >>= f) := Yields.bind hm fun a _ => hf a

theorem forM {xs : List β} {f : β → Prog σ ι ε Unit} (h : ∀ x ∈ xs, Built D (f x)) :
    Built D (xs.forM f) := by
  induction xs with
  | nil => exact pure ()
  | cons x rest ih =>
      rw [List.forall_mem_cons] at h
      exact bind h.1 fun _ => ih h.2

end Built

/-- A sequential loop: the invariant names what has been done. -/
theorem Yields.foldlM_upto {xs : List β} {f : α → β → Prog σ ι ε α} {I : List β → α → Prop}
    (h : ∀ pre x post a, xs = pre ++ x :: post → I pre a → Yields D (I (pre ++ [x])) (f a x))
    {a : α} (ha : I [] a) : Yields D (I xs) (xs.foldlM f a) := by
  suffices go : ∀ (todo pre : List β) (a : α), xs = pre ++ todo → I pre a →
      Yields D (I xs) (todo.foldlM f a) from go xs [] a rfl ha
  intro todo
  induction todo with
  | nil =>
      intro pre a hxs ha
      rw [hxs, List.append_nil]
      exact .pure ha
  | cons x rest ih =>
      intro pre a hxs ha
      rw [List.foldlM_cons]
      exact .bind (h pre x rest a hxs ha) fun b hb => ih (pre ++ [x]) b (by simp [hxs]) hb

theorem Yields.foldlM {xs : List β} {f : α → β → Prog σ ι ε α}
    (h : ∀ a, V a → ∀ x ∈ xs, Yields D V (f a x)) {a : α} (ha : V a) :
    Yields D V (xs.foldlM f a) := by
  refine .foldlM_upto (I := fun _ => V) (fun pre x post a hxs ha => h a ha x ?_) ha
  rw [hxs]
  exact List.mem_append_right pre List.mem_cons_self

/-! ## Results -/

/-- **What a triple says about a value holds of the value that a run comes to.** -/
theorem Triple.of_executes {ξ : Type} {env : σ → ξ → Option σ} {R : Rely σ} {G : σ → σ → Prop}
    {P : σ → Prop} {E : ε → σ → Prop} {s s' : σ} {ls : List (Label ι ξ)} {a : α}
    (htriple : Triple (fun _ : ι => True) R G P m (fun a _ => V a) E)
    (henv : ∀ s x s', env s x = some s' → R.rel s s') (hs : P s)
    (h : m.Executes env s ls (.ok a) s') : V a := by
  classical
  -- only a value outside `V` would let this task end
  let stuck : Task σ ι ε := .act (fun _ _ => none) fun _ _ => .done
  have hsafe := htriple G (fun _ _ h => h) (fun _ => True)
    ⟨fun _ _ _ _ => trivial, fun _ _ _ _ => trivial⟩
    (fun a => if V a then stuck else .done) (fun _ => stuck) (fun _ => False) (fun _ _ => False)
    (fun a s ha _ => by
      rw [if_pos ha]
      exact fun _ _ _ _ _ h => nomatch h)
    (fun _ _ _ _ => fun _ _ _ _ _ h => nomatch h) s hs trivial
  have hrun := h (fun a => if V a then stuck else .done) (fun _ => stuck) []
  rw [List.append_nil] at hrun
  obtain ⟨hend, -⟩ := Task.Safe.run (B := fun _ => True) (I := fun _ => True) hsafe
    (fun s x s' _ hx => henv s x s' hx)
    ⟨fun _ _ _ _ => trivial, fun _ _ _ _ => trivial⟩ trivial (fun l _ => l.uses_true) hrun
  by_contra hV
  simp only [resume, if_neg hV] at hend
  exact Task.Safe.of_done hend

namespace Yields

/-! ## Triples -/

variable {A : ι → Prop} {R M : Rely σ} {I : σ → Prop} {E : ε → σ → Prop}

/-- **An assertion that the environment and every good step keep holds at every
end of the program**, and so does what a failing step establishes about its error.
The steps guarantee more than they rely on of each other. -/
theorem triple_within {G : σ → σ → Prop} (hm : Yields D V m) (hR : ∀ s s', R.rel s s' → M.rel s s')
    (hG : ∀ s s', G s s' → M.rel s s') (hI : M.Stable I) (hE : ∀ e, M.Stable (E e))
    (hgood : ∀ {γ : Type} {f : ι → σ → Option (Except ε γ × σ)}, D.good f → ∀ i s r s', A i → I s →
      f i s = some (r, s') → G s s' ∧ ∀ e, r = .error e → E e s')
    (hsoft : ∀ f e s, D.soft f → E e s → E (f e) s) (hmay : ∀ e s, D.may e → I s → E e s) :
    Triple A R G I m (fun a s => V a ∧ I s) fun e s => E e s ∧ I s := by
  induction hm generalizing R with
  | pure h => exact .pure fun s hs => ⟨h, hs⟩
  | throw h => exact .throw fun s hs => ⟨hmay _ s h hs, hs⟩
  | draw h hV =>
      refine .draw (fun s s' hs hsR => hI s s' hs (hR s s' hsR)) ?_
      rintro i s r s' hA hs hf
      obtain ⟨hguarantee, herr⟩ := hgood h i s r s' hA hs hf
      refine ⟨hguarantee, ?_⟩
      cases r with
      | ok a => exact ⟨hV i s a s' hf, hI s s' hs (hG s s' hguarantee)⟩
      | error e => exact ⟨herr e rfl, hI s s' hs (hG s s' hguarantee)⟩
  | bind _ _ ihm ihf => exact (ihm hR).bind fun a => .assume fun ha => ihf a ha hR
  | onError _ _ ihm ihc =>
      refine .onError (ihm hR) fun e => ?_
      -- the cleanup does not change which error it is, nor what is known of it
      have hkept : Kept R G (E e) := ⟨fun s s' he hsR => hE e s s' he (hR s s' hsR),
        fun s s' he hguarantee => hE e s s' he (hG s s' hguarantee)⟩
      refine ((ihc hR).keep hkept).conseq (fun s hs => ⟨hs.2, hs.1⟩) ?_ ?_
      · exact fun _ s hs => ⟨hs.2, hs.1.2⟩
      · exact fun _ s hs => ⟨hs.2, hs.1.2⟩
  | attempt _ ihm =>
      refine .attempt ((ihm hR).conseq (fun s hs => hs) ?_ ?_)
      · rintro a s ⟨ha, hs⟩
        refine ⟨fun b hb => ?_, hs⟩
        obtain rfl := Except.ok.inj hb
        exact ha
      · exact fun e s hs => ⟨nofun, hs.2⟩
  | mapError hf _ ihm =>
      exact .mapError ((ihm hR).conseq (fun s hs => hs) (fun _ s hs => hs)
        fun e s hs => ⟨hsoft _ e s hf hs.1, hs.2⟩)
  | @parForEach β xs f _ ih =>
      let S : Split R G xs.length :=
        { rely := fun _ => M
          guarantee := fun _ => G
          inherit := fun _ => hR
          others := fun _ _ s s' _ h => hG s s' h
          within := fun _ _ _ h => h }
      have hchild : ∀ i : Fin xs.length, Triple A M G I (f (xs.get i)) (fun _ => I)
          fun e s => E e s ∧ I s := fun i =>
        (ih _ (List.get_mem xs i) fun s s' h => h).conseq (fun s hs => hs) (fun _ s hs => hs.2)
          fun e s he => he
      have hkept : Kept R S.any I := ⟨fun s s' hs hsR => hI s s' hs (hR s s' hsR),
        fun s s' hs hM => hI s s' hs (hG s s' (Exists.elim hM fun _ h => h))⟩
      refine .parForEach S (fun _ => I) hkept (fun s hs => hs) (fun _ s hs => hs) hchild
        (fun _ => hI) ?_ (fun s hs _ => ⟨trivial, hs⟩) fun _ e s _ he => he
      exact fun _ e s s' h hM => ⟨hE e s s' h.1 hM, hI s s' h.2 hM⟩
  | weaken _ h ihm =>
      exact (ihm hR).conseq (fun s hs => hs) (fun a s hs => ⟨h a hs.1, hs.2⟩) fun e s hs => hs

/-- The same where the steps guarantee what they rely on. -/
theorem triple (hm : Yields D V m) (hR : ∀ s s', R.rel s s' → M.rel s s') (hI : M.Stable I)
    (hE : ∀ e, M.Stable (E e))
    (hgood : ∀ {γ : Type} {f : ι → σ → Option (Except ε γ × σ)}, D.good f → ∀ i s r s', A i → I s →
      f i s = some (r, s') → M.rel s s' ∧ ∀ e, r = .error e → E e s')
    (hsoft : ∀ f e s, D.soft f → E e s → E (f e) s) (hmay : ∀ e s, D.may e → I s → E e s) :
    Triple A R M.rel I m (fun a s => V a ∧ I s) fun e s => E e s ∧ I s :=
  hm.triple_within hR (fun _ _ h => h) hI hE hgood hsoft hmay

/-! ## Remaining steps -/

/-- **A property of trees of steps that goes back over every former holds of the
program in front of any continuation that has it.** The children of a parallel
loop may be required to have another property, `C`. -/
theorem closed {P C : Task σ ι ε → Prop} (hm : Yields D V m)
    (hdone : C .done) (hfail : ∀ e, C (.fail e))
    (hdrawP : ∀ {γ : Type} {f : ι → σ → Option (Except ε γ × σ)} {U : γ → Prop}, D.good f →
      (∀ i s a s', f i s = some (.ok a, s') → U a) → ∀ k h,
      (∀ a, U a → P (k a)) → (∀ e, P (h e)) → P (Prog.draw f k h))
    (hdrawC : ∀ {γ : Type} {f : ι → σ → Option (Except ε γ × σ)} {U : γ → Prop}, D.good f →
      (∀ i s a s', f i s = some (.ok a, s') → U a) → ∀ k h,
      (∀ a, U a → C (k a)) → (∀ e, C (h e)) → C (Prog.draw f k h))
    (hforkP : ∀ n st ch nx hd, (∀ i, C (ch i)) → P nx → (∀ e, P (hd e)) →
      P (.fork n st ch nx hd))
    (hforkC : ∀ n st ch nx hd, (∀ i, C (ch i)) → C nx → (∀ e, C (hd e)) →
      C (.fork n st ch nx hd)) :
    (∀ k h, (∀ a, V a → P (k a)) → (∀ e, P (h e)) → P (m k h)) ∧
      ∀ k h, (∀ a, V a → C (k a)) → (∀ e, C (h e)) → C (m k h) := by
  induction hm with
  | pure ha => exact ⟨fun k h hk _ => hk _ ha, fun k h hk _ => hk _ ha⟩
  | throw _ => exact ⟨fun k h _ hh => hh _, fun k h _ hh => hh _⟩
  | draw hf hV => exact ⟨hdrawP hf hV, hdrawC hf hV⟩
  | bind _ _ ihm ihf =>
      exact ⟨fun k h hk hh => ihm.1 _ h (fun a ha => (ihf a ha).1 k h hk hh) hh,
        fun k h hk hh => ihm.2 _ h (fun a ha => (ihf a ha).2 k h hk hh) hh⟩
  | onError _ _ ihm ihc =>
      exact ⟨fun k h hk hh => ihm.1 k _ hk fun e => ihc.1 _ _ (fun _ _ => hh e) fun _ => hh e,
        fun k h hk hh => ihm.2 k _ hk fun e => ihc.2 _ _ (fun _ _ => hh e) fun _ => hh e⟩
  | attempt _ ihm =>
      exact ⟨fun k h hk hh => ihm.1 _ _ (fun a ha => hk (.ok a) fun b hb => Except.ok.inj hb ▸ ha)
          fun e => hk (.error e) nofun,
        fun k h hk hh => ihm.2 _ _ (fun a ha => hk (.ok a) fun b hb => Except.ok.inj hb ▸ ha)
          fun e => hk (.error e) nofun⟩
  | mapError _ _ ihm =>
      exact ⟨fun k h hk hh => ihm.1 k _ hk fun e => hh _, fun k h hk hh => ihm.2 k _ hk fun e => hh _⟩
  | @parForEach β xs f _ ih =>
      have hchild : ∀ i : Fin xs.length, C ((f (xs.get i)).task) :=
        fun i => (ih _ (List.get_mem xs i)).2 _ _ (fun _ _ => hdone) hfail
      exact ⟨fun k h hk hh => hforkP _ _ _ _ _ hchild (hk () trivial) hh,
        fun k h hk hh => hforkC _ _ _ _ _ hchild (hk () trivial) hh⟩
  | weaken _ h ihm =>
      exact ⟨fun k hd hk hh => ihm.1 k hd (fun a ha => hk a (h a ha)) hh,
        fun k hd hk hh => ihm.2 k hd (fun a ha => hk a (h a ha)) hh⟩

/-- Steps that accept every input. -/
def accepting : Discipline σ ι ε where
  good f := ∀ i s, (f i s).isSome
  soft _ := True
  may _ := True

/-- A program whose steps accept every input is never stuck. -/
theorem willing [Nonempty ι] (hm : Yields accepting V m) {k : α → Task σ ι ε}
    {h : ε → Task σ ι ε} (hk : ∀ a, (k a).Willing fun _ => True)
    (hh : ∀ e, (h e).Willing fun _ => True) : (m k h).Willing fun _ => True := by
  have hdraw : ∀ {γ : Type} {f : ι → σ → Option (Except ε γ × σ)} {U : γ → Prop},
      (accepting (σ := σ) (ι := ι)).good f → (∀ i s a s', f i s = some (.ok a, s') → U a) →
        ∀ k h, (∀ a, U a → (k a).Willing fun _ => True) → (∀ e, (h e).Willing fun _ => True) →
          (Prog.draw f k h).Willing fun _ => True := by
    intro γ f U hf hU k h hk hh
    refine ⟨fun s => ?_, fun i s => ?_⟩
    · obtain ⟨i⟩ := ‹Nonempty ι›
      exact ⟨i, trivial, by rw [Option.isSome_map]; exact hf i s⟩
    · dsimp only
      split
      · rename_i a s' heq
        exact hk a (hU i s a s' heq)
      · exact hh _
      · trivial
  exact (hm.closed trivial (fun _ => trivial) hdraw hdraw
    (fun _ _ _ _ _ hc hn hd => ⟨hc, hn, hd⟩) fun _ _ _ _ _ hc hn hd => ⟨hc, hn, hd⟩).1 k h
      (fun a _ => hk a) hh

/-- A value that the program comes to in some environment is in `V`. -/
theorem of_executes {ξ : Type} {env : σ → ξ → Option σ} {s s' : σ} {ls : List (Label ι ξ)} {a : α}
    (hm : Yields D V m) (h : m.Executes env s ls (.ok a) s') : V a := by
  let R : Rely σ := .closure fun s s' => ∃ x, env s x = some s'
  let M : Rely σ := ⟨fun _ _ => True, fun _ => trivial, fun _ _ => trivial⟩
  have htriple : Triple (fun _ : ι => True) R M.rel (fun _ => True) m (fun a s => V a ∧ True)
      (fun _ _ => True ∧ True) :=
    hm.triple (fun _ _ _ => trivial) (fun _ _ _ _ => trivial) (fun _ _ _ _ _ => trivial)
      (fun _ _ _ _ _ _ _ _ => ⟨trivial, fun _ _ => trivial⟩) (fun _ _ _ _ h => h)
      fun _ _ _ _ => trivial
  refine (htriple.conseq (fun _ h => h) (fun _ _ h => h.1) fun _ _ h => h).of_executes ?_ trivial h
  exact fun _ x _ hx => Relation.ReflTransGen.single ⟨x, hx⟩

end Yields

end CipherFS.Prog
