import Mathlib

/-!
# Runs of a partial step function

A machine is a step function that consumes one action and may refuse it; a run
consumes a list of actions. Invariants of a step are invariants of a run, and a
property that each step keeps exactly under some condition holds throughout a
run exactly when every action of the run meets that condition where it occurs.
-/

namespace CipherFS

variable {S A : Type*}

/-- The state after a list of actions, if none is refused. -/
def run (step : S → A → Option S) (s : S) (as : List A) : Option S := as.foldlM step s

variable {step : S → A → Option S} {s t : S} {as : List A}

@[simp] theorem run_nil : run step s [] = some s := rfl

theorem run_cons {a : A} : run step s (a :: as) = (step s a).bind fun m => run step m as := rfl

theorem run_append {bs : List A} :
    run step s (as ++ bs) = (run step s as).bind fun m => run step m bs :=
  List.foldlM_append

theorem run_concat {a : A} :
    run step s (as ++ [a]) = (run step s as).bind fun m => step m a := by
  rw [run_append]
  refine Option.bind_congr fun m _ => ?_
  rw [run_cons]
  cases step m a <;> rfl

theorem exists_run_of_append {bs : List A} (h : run step s (as ++ bs) = some t) :
    ∃ m, run step s as = some m ∧ run step m bs = some t := by
  rwa [run_append, Option.bind_eq_some_iff] at h

/-- An invariant of the steps a run takes is an invariant of the run. -/
theorem run_inv {I : S → Prop} (hstep : ∀ m a m', a ∈ as → I m → step m a = some m' → I m')
    (h : run step s as = some t) (hs : I s) : I t := by
  induction as generalizing s with
  | nil =>
      obtain rfl : s = t := Option.some.inj h
      exact hs
  | cons a rest ih =>
      rw [run_cons, Option.bind_eq_some_iff] at h
      obtain ⟨m, hm, hrest⟩ := h
      exact ih (fun m a m' ha => hstep m a m' (List.mem_cons_of_mem _ ha)) hrest
        (hstep s a m List.mem_cons_self hs hm)

/-- An invariant that names the actions that have been taken. -/
theorem run_upto {I : List A → S → Prop}
    (hstep : ∀ pre a post m m', as = pre ++ a :: post → I pre m → step m a = some m' →
      I (pre ++ [a]) m')
    (h : run step s as = some t) (hs : I [] s) : I as t := by
  induction as using List.reverseRecOn generalizing t with
  | nil =>
      obtain rfl : s = t := Option.some.inj h
      exact hs
  | append_singleton pre a ih =>
      rw [run_concat, Option.bind_eq_some_iff] at h
      obtain ⟨m, hm, ha⟩ := h
      refine hstep pre a [] m t rfl (ih ?_ hm) ha
      intro pre' b post m m' hpre
      exact hstep pre' b (post ++ [a]) m m' (by rw [hpre]; simp)

/-- A run comes to its end when the invariant lets every step go through. -/
theorem exists_run_upto {I : List A → S → Prop}
    (hstep : ∀ pre a post m, as = pre ++ a :: post → I pre m →
      ∃ m', step m a = some m' ∧ I (pre ++ [a]) m')
    (hs : I [] s) : ∃ t, run step s as = some t ∧ I as t := by
  induction as using List.reverseRecOn with
  | nil => exact ⟨s, rfl, hs⟩
  | append_singleton pre a ih =>
      obtain ⟨m, hm, hI⟩ := ih fun pre' b post m hpre =>
        hstep pre' b (post ++ [a]) m (by rw [hpre]; simp)
      obtain ⟨t, ht, hI'⟩ := hstep pre a [] m rfl hI
      exact ⟨t, by rw [run_concat, hm, Option.bind_some, ht], hI'⟩

/-- What a step establishes for its action, and later steps keep, holds at the
end for every action of the run. -/
theorem run_covers {D : A → S → Prop} (hdone : ∀ m a m', step m a = some m' → D a m')
    (hkeep : ∀ m a m' b, D b m → step m a = some m' → D b m')
    (h : run step s as = some t) : ∀ a ∈ as, D a t := by
  induction as generalizing s with
  | nil =>
      intro a ha
      cases ha
  | cons a rest ih =>
      rw [run_cons, Option.bind_eq_some_iff] at h
      obtain ⟨m, hm, hrest⟩ := h
      rw [List.forall_mem_cons]
      exact ⟨run_inv (fun m b m' _ hD hstep => hkeep m b m' a hD hstep) hrest (hdone s a m hm),
        ih hrest⟩

/-- The actions of a run at which a step keeps `P` exactly when `G` holds decide
whether `P` holds throughout. -/
theorem always_iff {P : S → Prop} {G : S → A → Prop} (hs : P s)
    (hstep : ∀ m a m', P m → step m a = some m' → (P m' ↔ G m a))
    (hrun : run step s as = some t) :
    (∀ pre post m, as = pre ++ post → run step s pre = some m → P m) ↔
      ∀ pre a post m, as = pre ++ a :: post → run step s pre = some m → G m a := by
  constructor
  · intro h pre a post m has hm
    have hsplit : as = (pre ++ [a]) ++ post := by rw [has]; simp
    rw [hsplit] at hrun
    obtain ⟨m', hm', -⟩ := exists_run_of_append hrun
    have hstep' : step m a = some m' := by
      rw [run_concat, hm] at hm'
      exact hm'
    exact (hstep m a m' (h pre (a :: post) m has hm) hstep').mp
      (h (pre ++ [a]) post m' hsplit hm')
  · intro h pre
    induction pre using List.reverseRecOn with
    | nil =>
        intro post m _ hm
        obtain rfl : s = m := Option.some.inj hm
        exact hs
    | append_singleton pre a ih =>
        intro post m' has hm'
        rw [run_concat, Option.bind_eq_some_iff] at hm'
        obtain ⟨m, hm, hstep'⟩ := hm'
        have hsplit : as = pre ++ a :: post := by rw [has]; simp
        exact (hstep m a m' (ih (a :: post) m hsplit hm) hstep').mpr (h pre a post m hsplit hm)

end CipherFS
