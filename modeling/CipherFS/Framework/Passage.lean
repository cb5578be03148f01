import CipherFS.Framework.Built

/-!
# The passage of a run from one program to the next

A run of two programs one after the other has either come to a result of the
first, and is in the second from there on, or it is still in the first, and then
what follows does not matter for the state it is in. This holds of parallel
loops as well, so the result of the first program may be named in a statement
about all runs.
-/

namespace CipherFS.Prog

variable {σ ι ε ξ α β : Type} {env : σ → ξ → Option σ}

/-- Every run has either passed through a result of the program, or has not ended
and would be in the same state with any other continuation. -/
def Passes (env : σ → ξ → Option σ) (m : Prog σ ι ε α) : Prop :=
  ∀ k h s (ls : List (Label ι ξ)) c, run (interleave env) (m k h, s) ls = some c →
    (∃ ls₁ ls₂ r u, ls = ls₁ ++ ls₂ ∧ Executes env m s ls₁ r u) ∨
    c.1.ended = false ∧ ∀ k' h', ∃ t', run (interleave env) (m k' h', s) ls = some (t', c.2)

namespace Passes

theorem pure (a : α) : Passes env (Pure.pure a : Prog σ ι ε α) :=
  fun _ _ s ls _ _ => .inl ⟨[], ls, .ok a, s, rfl, .pure a s⟩

theorem throw (e : ε) : Passes env (Prog.throw e : Prog σ ι ε α) :=
  fun _ _ s ls _ _ => .inl ⟨[], ls, .error e, s, rfl, .ofExcept (.error e) s⟩

/-- A step of the environment does not change the program. -/
theorem run_env {t : Task σ ι ε} {s : σ} {a : ξ} {ls : List (Label ι ξ)} :
    run (interleave env) (t, s) (.env a :: ls) =
      (env s a).bind fun u => run (interleave env) (t, u) ls := by
  rw [run_cons]
  show ((env s a).map fun u => (t, u)).bind _ = _
  rw [Option.bind_map]
  rfl

theorem draw (f : ι → σ → Option (Except ε α × σ)) : Passes env (Prog.draw f) := by
  intro k h s ls
  induction ls generalizing s with
  | nil =>
      intro c hrun
      obtain rfl : (Prog.draw f k h, s) = c := Option.some.inj hrun
      exact .inr ⟨rfl, fun k' h' => ⟨_, rfl⟩⟩
  | cons l rest ih =>
      intro c hrun
      cases l with
      | env a =>
          rw [run_env, Option.bind_eq_some_iff] at hrun
          obtain ⟨u, hu, hrest⟩ := hrun
          rcases ih u c hrest with ⟨ls₁, ls₂, r, v, rfl, hexec⟩ | ⟨hend, hstill⟩
          · exact .inl ⟨.env a :: ls₁, ls₂, r, v, rfl, hexec.after_env hu⟩
          · refine .inr ⟨hend, fun k' h' => ?_⟩
            rw [run_env, hu]
            exact hstill k' h'
      | task p =>
          rw [run_cons, Option.bind_eq_some_iff] at hrun
          obtain ⟨c', hstep, -⟩ := hrun
          rcases Task.step_cases hstep with ⟨_, _, i, heq, rfl, hf, -⟩ | ⟨_, _, _, _, _, heq, -⟩
          · cases heq
            obtain ⟨⟨r, u⟩, hr, -⟩ := Option.map_eq_some_iff.mp hf
            refine .inl ⟨[.task (.here i)], rest, r, u, rfl, fun k' h' rest' => ?_⟩
            show ((Task.step (Prog.draw f k' h') s (.here i)).bind fun c =>
              run (interleave env) c rest') = _
            cases r <;> simp [Prog.draw, Task.step, hr, resume]
          · cases heq

theorem bind {m : Prog σ ι ε α} {f : α → Prog σ ι ε β} (hm : Passes env m)
    (hf : ∀ a s ls u, Executes env m s ls (.ok a) u → Passes env (f a)) :
    Passes env (m >>= f) := by
  intro k h s ls c hrun
  rcases hm (fun a => f a k h) h s ls c hrun with
    ⟨ls₁, ls₂, r, u, rfl, hexec⟩ | ⟨hend, hstill⟩
  · cases r with
    | error e => exact .inl ⟨ls₁, ls₂, .error e, u, rfl, hexec.bind_error⟩
    | ok a =>
        have hrest : run (interleave env) (f a k h, u) ls₂ = some c :=
          (hexec _ _ _).symm.trans hrun
        rcases hf a s ls₁ u hexec k h u ls₂ c hrest with
          ⟨ls₃, ls₄, r, v, rfl, hexec'⟩ | ⟨hend, hstill⟩
        · exact .inl ⟨ls₁ ++ ls₃, ls₄, r, v, (List.append_assoc ..).symm, hexec.bind_ok hexec'⟩
        · refine .inr ⟨hend, fun k' h' => ?_⟩
          obtain ⟨t', ht'⟩ := hstill k' h'
          exact ⟨t', (hexec _ _ _).trans ht'⟩
  · exact .inr ⟨hend, fun k' h' => hstill (fun a => f a k' h') h'⟩

theorem mapError {m : Prog σ ι ε α} (f : ε → ε) (hm : Passes env m) :
    Passes env (m.mapError f) := by
  intro k h s ls c hrun
  rcases hm k (fun e => h (f e)) s ls c hrun with
    ⟨ls₁, ls₂, r, u, rfl, hexec⟩ | ⟨hend, hstill⟩
  · cases r with
    | ok a => exact .inl ⟨ls₁, ls₂, .ok a, u, rfl, fun k' h' => hexec k' fun e => h' (f e)⟩
    | error e => exact .inl ⟨ls₁, ls₂, .error (f e), u, rfl, fun k' h' => hexec k' fun e => h' (f e)⟩
  · exact .inr ⟨hend, fun k' h' => hstill k' fun e => h' (f e)⟩

theorem attempt {m : Prog σ ι ε α} (hm : Passes env m) : Passes env m.attempt := by
  intro k h s ls c hrun
  rcases hm (fun a => k (.ok a)) (fun e => k (.error e)) s ls c hrun with
    ⟨ls₁, ls₂, r, u, rfl, hexec⟩ | ⟨hend, hstill⟩
  · refine .inl ⟨ls₁, ls₂, .ok r, u, rfl, fun k' h' rest => ?_⟩
    have hrest := hexec (fun a => k' (.ok a)) (fun e => k' (.error e)) rest
    cases r <;> exact hrest
  · exact .inr ⟨hend, fun k' h' => hstill (fun a => k' (.ok a)) fun e => k' (.error e)⟩

theorem onError {m : Prog σ ι ε α} {cleanup : Prog σ ι ε Unit} (hm : Passes env m)
    (hc : Passes env cleanup) : Passes env (m.onError cleanup) := by
  intro k h s ls c hrun
  rcases hm k (fun e => cleanup (fun _ => h e) fun _ => h e) s ls c hrun with
    ⟨ls₁, ls₂, r, u, rfl, hexec⟩ | ⟨hend, hstill⟩
  · cases r with
    | ok a => exact .inl ⟨ls₁, ls₂, .ok a, u, rfl, fun k' h' => hexec k' _⟩
    | error e =>
        have hrest : run (interleave env) (cleanup (fun _ => h e) (fun _ => h e), u) ls₂ = some c :=
          (hexec _ _ _).symm.trans hrun
        rcases hc _ _ u ls₂ c hrest with ⟨ls₃, ls₄, r, v, rfl, hexec'⟩ | ⟨hend, hstill⟩
        · refine .inl ⟨ls₁ ++ ls₃, ls₄, .error e, v, (List.append_assoc ..).symm, ?_⟩
          intro k' h' rest
          rw [List.append_assoc]
          refine (hexec k' (fun e => cleanup (fun _ => h' e) fun _ => h' e) _).trans ?_
          have hend := hexec' (fun _ => h' e) (fun _ => h' e) rest
          cases r <;> exact hend
        · refine .inr ⟨hend, fun k' h' => ?_⟩
          obtain ⟨t', ht'⟩ := hstill (fun _ => h' e) fun _ => h' e
          exact ⟨t', (hexec k' (fun e => cleanup (fun _ => h' e) fun _ => h' e) _).trans ht'⟩
  · exact .inr ⟨hend, fun k' h' => hstill k' fun e => cleanup (fun _ => h' e) fun _ => h' e⟩

/-- What follows a parallel loop does not matter for its steps. -/
theorem step_fork {n : Nat} {started : Fin n → Bool} {children : Fin n → Task σ ι ε}
    {next : Task σ ι ε} {handler : ε → Task σ ι ε} {s : σ} {p : Pick ι} {c : Task σ ι ε × σ}
    (h : (Task.fork n started children next handler).step s p = some c) :
    (∃ r : Except ε Unit, ∀ nx hd, (Task.fork n started children nx hd).step s p =
        some (resume (fun _ => nx) hd r, c.2)) ∨
      ∃ started' children', ∀ nx hd, (Task.fork n started children nx hd).step s p =
        some (.fork n started' children' nx hd, c.2) := by
  cases p with
  | here i => cases h
  | child i q =>
      rw [Task.step] at h
      split at h
      · rename_i hi
        obtain ⟨r, hr, rfl⟩ := Option.map_eq_some_iff.mp h
        refine .inr ⟨Function.update started ⟨i, hi⟩ true, Function.update children ⟨i, hi⟩ r.1,
          fun nx hd => ?_⟩
        rw [Task.step, dif_pos hi, hr]
        rfl
      · cases h
  | join =>
      rw [Task.step] at h
      split at h
      · rename_i hall
        cases h
        refine .inl ⟨.ok (), fun nx hd => ?_⟩
        rw [Task.step, if_pos hall]
        rfl
      · cases h
  | abort i =>
      rw [Task.step] at h
      split at h
      · rename_i hi
        split at h
        · rename_i hends
          obtain ⟨e, he, rfl⟩ := Option.map_eq_some_iff.mp h
          refine .inl ⟨.error e, fun nx hd => ?_⟩
          rw [Task.step, dif_pos hi, if_pos hends, he]
          rfl
        · cases h
      · cases h

/-- A parallel loop that has begun. -/
def forking (n : Nat) (started : Fin n → Bool) (children : Fin n → Task σ ι ε) :
    Prog σ ι ε Unit := fun k h => .fork n started children (k ()) h

theorem forking_passes {n : Nat} {started : Fin n → Bool} {children : Fin n → Task σ ι ε} :
    Passes env (forking n started children) := by
  intro k h s ls
  induction ls generalizing started children s with
  | nil =>
      intro c hrun
      obtain rfl : (forking n started children k h, s) = c := Option.some.inj hrun
      exact .inr ⟨rfl, fun k' h' => ⟨_, rfl⟩⟩
  | cons l rest ih =>
      intro c hrun
      cases l with
      | env a =>
          rw [run_env, Option.bind_eq_some_iff] at hrun
          obtain ⟨u, hu, hrest⟩ := hrun
          rcases ih u c hrest with ⟨ls₁, ls₂, r, v, rfl, hexec⟩ | ⟨hend, hstill⟩
          · exact .inl ⟨.env a :: ls₁, ls₂, r, v, rfl, hexec.after_env hu⟩
          · refine .inr ⟨hend, fun k' h' => ?_⟩
            rw [run_env, hu]
            exact hstill k' h'
      | task p =>
          rw [run_cons, Option.bind_eq_some_iff] at hrun
          obtain ⟨c', hstep, hrest⟩ := hrun
          rcases step_fork hstep with ⟨r, hends⟩ | ⟨started', children', hgoes⟩
          · refine .inl ⟨[.task p], rest, r, c'.2, rfl, fun k' h' rest' => ?_⟩
            show ((Task.step (.fork n started children (k' ()) h') s p).bind fun c =>
              run (interleave env) c rest') = _
            rw [hends]
            cases r <;> rfl
          · -- the loop goes on with the children as they are now
            have hc' : c' = (forking n started' children' k h, c'.2) :=
              Option.some.inj (hstep.symm.trans (hgoes (k ()) h))
            rw [hc'] at hrest
            have hfirst : ∀ k' h' more, run (interleave env) (forking n started children k' h', s)
                (.task p :: more) =
                  run (interleave env) (forking n started' children' k' h', c'.2) more := by
              intro k' h' more
              rw [run_cons]
              show ((Task.step (.fork n started children (k' ()) h') s p).bind fun c =>
                run (interleave env) c more) = _
              rw [hgoes]
              rfl
            rcases ih c'.2 c hrest with ⟨ls₁, ls₂, r, v, rfl, hexec⟩ | ⟨hend, hstill⟩
            · refine .inl ⟨.task p :: ls₁, ls₂, r, v, rfl, fun k' h' more => ?_⟩
              exact (hfirst k' h' (ls₁ ++ more)).trans (hexec k' h' more)
            · refine .inr ⟨hend, fun k' h' => ?_⟩
              obtain ⟨t', ht'⟩ := hstill k' h'
              exact ⟨t', (hfirst k' h' rest).trans ht'⟩

theorem parForEach (xs : List β) (f : β → Prog σ ι ε Unit) :
    Passes env (Prog.parForEach xs f) := forking_passes

end Passes

variable {D : Discipline σ ι ε} {m : Prog σ ι ε α} {V : α → Prop}

/-- **Every program that is built from steps lets a run pass.** -/
theorem Yields.passes (hm : Yields D V m) : Passes env m := by
  induction hm with
  | pure _ => exact .pure _
  | throw _ => exact .throw _
  | draw _ _ => exact .draw _
  | bind hm _ ihm ihf => exact .bind ihm fun a _ _ _ hexec => ihf a (hm.of_executes hexec)
  | onError _ _ ihm ihc => exact .onError ihm ihc
  | attempt _ ihm => exact .attempt ihm
  | mapError _ _ ihm => exact .mapError _ ihm
  | parForEach _ _ => exact .parForEach _ _
  | weaken _ _ ihm => exact ihm

/-- **A run of two programs** is in the second, from a result of the first on, or
it has not ended well and is in the state of a run of the first. -/
theorem Yields.passed (hm : Yields D V m) {f : α → Prog σ ι ε Unit} {s : σ}
    {ls : List (Label ι ξ)} {c : Task σ ι ε × σ}
    (hrun : run (interleave env) ((m >>= f).task, s) ls = some c) :
    (∃ ls₁ ls₂ a u, ls = ls₁ ++ ls₂ ∧ Executes env m s ls₁ (.ok a) u ∧
      run (interleave env) ((f a).task, u) ls₂ = some c) ∨
    c.1.isDone = false ∧ ∃ t', run (interleave env) (m (fun _ => .done) .fail, s) ls =
      some (t', c.2) := by
  have hsplit := hm.passes (fun a => (f a).task) .fail s ls c hrun
  rcases hsplit with ⟨ls₁, ls₂, r, u, rfl, hexec⟩ | ⟨hend, hstill⟩
  · have hrest : run (interleave env) (resume (fun a => (f a).task) .fail r, u) ls₂ = some c :=
      (hexec _ _ _).symm.trans hrun
    cases r with
    | ok a => exact .inl ⟨ls₁, ls₂, a, u, rfl, hexec, hrest⟩
    | error e =>
        right
        have hfail := Task.run_failed hrest
        refine ⟨?_, c.1, (hexec _ _ _).trans hrest⟩
        rw [hfail]
        rfl
  · exact .inr ⟨Task.not_isDone hend, hstill _ _⟩

/-- **A run of two programs under one cleanup.** -/
theorem Yields.passed_onError (hm : Yields D V m) {cleanup : Prog σ ι ε Unit}
    (hc : Yields D (fun _ => True) cleanup) {f : α → Prog σ ι ε Unit} {s : σ}
    {ls : List (Label ι ξ)} {c : Task σ ι ε × σ}
    (hrun : run (interleave env) (((m >>= f).onError cleanup).task, s) ls = some c) :
    (∃ ls₁ ls₂ a u, ls = ls₁ ++ ls₂ ∧ Executes env m s ls₁ (.ok a) u ∧
      run (interleave env) (((f a).onError cleanup).task, u) ls₂ = some c) ∨
    c.1.isDone = false ∧ ∃ t', run (interleave env) (m.onError cleanup (fun _ => .done) .fail, s)
      ls = some (t', c.2) := by
  let h : ε → Task σ ι ε := fun e => cleanup (fun _ => .fail e) fun _ => .fail e
  have hsplit := hm.passes (fun a => f a (fun _ => .done) h) h s ls c hrun
  rcases hsplit with ⟨ls₁, ls₂, r, u, rfl, hexec⟩ | ⟨hend, hstill⟩
  · have hrest := (hexec (fun a => f a (fun _ => .done) h) h ls₂).symm.trans hrun
    cases r with
    | ok a => exact .inl ⟨ls₁, ls₂, a, u, rfl, hexec, hrest⟩
    | error e =>
        -- the cleanup, and what it ends with, does not depend on `f`
        refine .inr ⟨?_, c.1, (hexec (fun _ => .done) h ls₂).trans hrest⟩
        rcases hc.passes _ _ u ls₂ c hrest with ⟨ls₃, ls₄, r', v, rfl, hexec'⟩ | ⟨hend, -⟩
        · have hfail : run (interleave env) ((.fail e : Task σ ι ε), v) ls₄ = some c := by
            have hlast := (hexec' (fun _ => .fail e) (fun _ => .fail e) ls₄).symm.trans hrest
            cases r' <;> exact hlast
          rw [Task.run_failed hfail]
          rfl
        · exact Task.not_isDone hend
  · exact .inr ⟨Task.not_isDone hend, hstill _ _⟩

/-- **What a triple says of a result holds where a run comes to it.** -/
theorem Triple.at_result {A : ι → Prop} {R : Rely σ} {G : σ → σ → Prop} {P : σ → Prop}
    {Q : α → σ → Prop} {E : ε → σ → Prop} {s s' : σ} {a : α} {ls : List (Label ι ξ)}
    (htriple : Triple A R G P m Q E) (hQ : R.Stable (Q a))
    (henv : ∀ s x s', env s x = some s' → R.rel s s') (hs : P s)
    (hlabels : ∀ l ∈ ls, l.Uses A fun _ => True) (h : Executes env m s ls (.ok a) s') :
    Q a s' := by
  classical
  -- only the result `a` lets this task end
  let stuck : Task σ ι ε := .act (fun _ _ => none) fun _ _ => .done
  let k : α → Task σ ι ε := fun b => if b = a then .done else stuck
  have hstuck : ∀ u, stuck.Safe A R G (Q a) (fun _ _ => False) u := by
    intro u u' i u'' _ _ hstep
    cases hstep
  have hk : ∀ b u, Q b u → True → (k b).Safe A R G (Q a) (fun _ _ => False) u := by
    intro b u hb _
    by_cases heq : b = a
    · subst heq
      simp only [k, if_pos]
      exact fun u' hu' => hQ u u' hb hu'
    · simp only [k, if_neg heq]
      exact hstuck u
  have hsafe := htriple G (fun _ _ hG => hG) (fun _ => True)
    ⟨fun _ _ _ _ => trivial, fun _ _ _ _ => trivial⟩ k (fun _ => stuck) (Q a) (fun _ _ => False)
    hk (fun _ u _ _ => hstuck u) s hs trivial
  have hrun := h k (fun _ => stuck) []
  rw [List.append_nil] at hrun
  obtain ⟨hend, -⟩ := Task.Safe.run (B := fun _ => True) (I := fun _ => True) hsafe
    (fun u x u' _ hx => henv u x u' hx) ⟨fun _ _ _ _ => trivial, fun _ _ _ _ => trivial⟩ trivial
    hlabels hrun
  simp only [resume, k, if_pos] at hend
  exact Task.Safe.of_done hend

end CipherFS.Prog
