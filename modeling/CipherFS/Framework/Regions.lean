import CipherFS.Framework.RelyGuarantee

/-!
# Parallel tasks with regions of their own

A task of a parallel loop writes inside its own region of the shared state and
relies on nobody else to write there. Regions of different tasks are apart, so
what one guarantees is what the others rely on. The locations may be anything;
regions of an inner loop lie inside that of the task that runs it.
-/

namespace CipherFS

variable {σ ι ε ρ α : Type}

/-- A notion of location: which steps leave the locations of a region as they are. -/
structure Regional (σ ρ : Type) where
  spares : (ρ → Prop) → σ → σ → Prop
  anti : ∀ {K K' : ρ → Prop} {s s' : σ}, (∀ x, K' x → K x) → spares K s s' → spares K' s s'

namespace Regional

variable (L : Regional σ ρ) {R₀ R : Rely σ} {G : σ → σ → Prop} {K K' : ρ → Prop} {s s' : σ}
  {P : σ → Prop}

/-- A step of a task that has the region. -/
def Touches (K : ρ → Prop) : σ → σ → Prop := L.spares fun x => ¬K x

/-- Everybody else, and tasks that have other regions. -/
def beside (R₀ : Rely σ) (K : ρ → Prop) : Rely σ :=
  .closure fun s s' => R₀.rel s s' ∨ L.spares K s s'

theorem beside_mono (h : ∀ x, K' x → K x) (hrel : (L.beside R₀ K).rel s s') :
    (L.beside R₀ K').rel s s' :=
  Relation.ReflTransGen.mono (fun _ _ hstep => hstep.imp id (L.anti h)) _ _ hrel

theorem beside_of_rely (h : R₀.rel s s') : (L.beside R₀ K).rel s s' := .single (.inl h)

theorem stable_beside (h : R₀.Stable P) (h' : ∀ s s', L.spares K s s' → P s → P s') :
    (L.beside R₀ K).Stable P := by
  apply Rely.stable_closure
  intro s s' hstep hs
  rcases hstep with hrely | hspares
  · exact h s s' hs hrely
  · exact h' s s' hspares hs

/-- Regions that are apart split what a loop may rely on and has to guarantee. -/
def split {n : Nat} (region : Fin n → ρ → Prop)
    (hR : ∀ s s', R.rel s s' → (L.beside R₀ K).rel s s')
    (hG : ∀ s s', L.Touches K s s' → G s s') (hin : ∀ i x, region i x → K x)
    (hapart : ∀ i j x, i ≠ j → region i x → ¬region j x) : Split R G n where
  rely i := L.beside R₀ (region i)
  guarantee i := L.Touches (region i)
  inherit i s s' h := L.beside_mono (hin i) (hR s s' h)
  others i j _ _ hij h := .single (.inr (L.anti (fun x => hapart i j x hij) h))
  within i s s' h := hG s s' (L.anti (fun x hx hr => hx (hin i x hr)) h)

end Regional

namespace Prog

variable {A : ι → Prop} {R₀ R : Rely σ} {G : σ → σ → Prop} {K : ρ → Prop} {P F : σ → Prop}
  {f : α → Prog σ ι ε Unit} {xs : List α} {Qc : α → σ → Prop}

/-- **A parallel loop over tasks whose regions are apart** comes to what every
task comes to, and keeps what no step inside the regions breaks. -/
theorem Triple.parForEach_regions (L : Regional σ ρ) (R₀ : Rely σ) (region : α → ρ → Prop)
    (Pc : α → σ → Prop)
    (hR : ∀ s s', R.rel s s' → (L.beside R₀ K).rel s s')
    (hG : ∀ s s', L.Touches K s s' → G s s') (hin : ∀ a ∈ xs, ∀ x, region a x → K x)
    (hapart : xs.Pairwise fun a b => ∀ x, region a x → ¬region b x) (hF : R.Stable F)
    (hkeep : ∀ s s', L.Touches K s s' → F s → F s') (hPF : ∀ s, P s → F s)
    (hPc : ∀ s, P s → ∀ a ∈ xs, Pc a s)
    (hc : ∀ a ∈ xs, Triple A (L.beside R₀ (region a)) (L.Touches (region a)) (Pc a) (f a)
      (fun _ => Qc a) fun _ _ => True)
    (hQ : ∀ a ∈ xs, (L.beside R₀ (region a)).Stable (Qc a)) :
    Triple A R G P (Prog.parForEach xs f) (fun _ s => F s ∧ ∀ a ∈ xs, Qc a s) fun _ _ => True := by
  have hne : ∀ i j : Fin xs.length, i ≠ j → ∀ x, region (xs.get i) x → ¬region (xs.get j) x := by
    intro i j hij x hi hj
    rw [List.pairwise_iff_get] at hapart
    rcases Nat.lt_or_gt_of_ne fun heq => hij (Fin.ext heq) with hlt | hlt
    · exact hapart i j hlt x hi hj
    · exact hapart j i hlt x hj hi
  have hmem : ∀ i : Fin xs.length, xs.get i ∈ xs := fun i => List.get_mem xs i
  let S : Split R G xs.length := L.split (fun i => region (xs.get i)) hR hG
    (fun i => hin _ (hmem i)) fun i j x hij => hne i j hij x
  refine .parForEach S (fun i => Pc (xs.get i)) ⟨hF, ?_⟩ hPF (fun i s hs => hPc s hs _ (hmem i))
    (fun i => hc _ (hmem i)) (fun i => hQ _ (hmem i)) (fun _ _ _ _ _ _ => trivial) ?_
    fun _ _ _ _ _ => trivial
  · rintro s s' hs ⟨i, hi⟩
    exact hkeep s s' (L.anti (fun x hx hr => hx (hin _ (hmem i) x hr)) hi) hs
  · intro s hs hall
    refine ⟨hs, fun a ha => ?_⟩
    obtain ⟨i, rfl⟩ := List.mem_iff_get.mp ha
    exact hall i

end Prog

end CipherFS
