import Mathlib

/-!
# Contiguous layouts

A list of extents `(offset, length)` that starts at one position, leaves no gap
and ends at another. Such a list tiles the interval: every position inside lies
in exactly one extent, and no other position lies in any.
-/

namespace CipherFS.Tiling

/-- An extent: where it starts and how long it is. -/
abbrev Extent : Type := ℕ × ℕ

/-- Positions an extent covers. -/
def Covers (x : Extent) (p : ℕ) : Prop := x.1 ≤ p ∧ p < x.1 + x.2

instance (x : Extent) (p : ℕ) : Decidable (Covers x p) :=
  inferInstanceAs (Decidable (x.1 ≤ p ∧ p < x.1 + x.2))

/-- The extents follow one another from `a` to `b`. -/
def Contiguous : ℕ → List Extent → ℕ → Prop
  | a, [], b => a = b
  | a, x :: rest, b => x.1 = a ∧ Contiguous (a + x.2) rest b

/-- No position lies in both extents. -/
def Apart (x y : Extent) : Prop := ∀ p, ¬(Covers x p ∧ Covers y p)

theorem apart_symm {x y : Extent} (h : Apart x y) : Apart y x := fun p hp => h p hp.symm

theorem Contiguous.le : ∀ {xs : List Extent} {a b : ℕ}, Contiguous a xs b → a ≤ b
  | [], _, _, h => Nat.le_of_eq h
  | _ :: _, _, _, h => Nat.le_trans (Nat.le_add_right _ _) (Contiguous.le h.2)

theorem Contiguous.sum : ∀ {xs : List Extent} {a b : ℕ}, Contiguous a xs b →
    a + (xs.map Prod.snd).sum = b
  | [], _, _, h => h
  | x :: rest, a, b, h => by
      have := Contiguous.sum h.2
      rw [List.map_cons, List.sum_cons]
      omega

theorem Contiguous.bounds : ∀ {xs : List Extent} {a b : ℕ}, Contiguous a xs b →
    ∀ x ∈ xs, a ≤ x.1 ∧ x.1 + x.2 ≤ b
  | x :: rest, a, b, h, y, hy => by
      have htail := Contiguous.le h.2
      rcases List.mem_cons.mp hy with rfl | hy
      · have := h.1
        omega
      · have := Contiguous.bounds h.2 y hy
        omega

theorem contiguous_append : ∀ {xs ys : List Extent} {a c : ℕ},
    Contiguous a (xs ++ ys) c ↔ ∃ b, Contiguous a xs b ∧ Contiguous b ys c
  | [], ys, a, c => by simp [Contiguous]
  | x :: rest, ys, a, c => by
      simp only [List.cons_append, Contiguous, @contiguous_append rest ys]
      constructor
      · rintro ⟨hx, b, hrest, hys⟩
        exact ⟨b, ⟨hx, hrest⟩, hys⟩
      · rintro ⟨b, ⟨hx, hrest⟩, hys⟩
        exact ⟨hx, b, hrest, hys⟩

theorem Contiguous.covered {p : ℕ} : ∀ {xs : List Extent} {a b : ℕ},
    Contiguous a xs b → ((∃ x ∈ xs, Covers x p) ↔ a ≤ p ∧ p < b)
  | [], a, b, h => by
      have : a = b := h
      simp only [List.not_mem_nil, false_and, exists_false, false_iff]
      omega
  | x :: rest, a, b, h => by
      have hx := h.1
      have htail := Contiguous.le h.2
      rw [List.exists_mem_cons_iff, Contiguous.covered h.2, Covers]
      omega

theorem Contiguous.pairwise_apart : ∀ {xs : List Extent} {a b : ℕ},
    Contiguous a xs b → xs.Pairwise Apart
  | [], _, _, _ => List.Pairwise.nil
  | x :: rest, a, b, h => by
      refine List.pairwise_cons.mpr ⟨?_, Contiguous.pairwise_apart h.2⟩
      rintro y hy p ⟨hx, hyp⟩
      have hfirst := h.1
      have hbound := Contiguous.bounds h.2 y hy
      unfold Covers at hx hyp
      omega

/-- An extent ends before every later one starts. -/
theorem Contiguous.pairwise_before : ∀ {xs : List Extent} {a b : ℕ},
    Contiguous a xs b → xs.Pairwise fun x y => x.1 + x.2 ≤ y.1
  | [], _, _, _ => List.Pairwise.nil
  | x :: rest, a, b, h => by
      refine List.pairwise_cons.mpr ⟨fun y hy => ?_, Contiguous.pairwise_before h.2⟩
      rw [h.1]
      exact (Contiguous.bounds h.2 y hy).1

/-- Each position inside lies in exactly one extent of the list. -/
theorem Contiguous.countP_covers {p : ℕ} : ∀ {xs : List Extent} {a b : ℕ},
    Contiguous a xs b → xs.countP (Covers · p) = if a ≤ p ∧ p < b then 1 else 0
  | [], a, b, h => by
      have : a = b := h
      rw [List.countP_nil, if_neg (by omega)]
  | x :: rest, a, b, h => by
      have hx := h.1
      have htail := Contiguous.le h.2
      rw [List.countP_cons, Contiguous.countP_covers h.2]
      by_cases hc : Covers x p
      · rw [if_pos (decide_eq_true hc), if_neg (by unfold Covers at hc; omega),
          if_pos (by unfold Covers at hc; omega)]
      · have hskip : decide (Covers x p) ≠ true := by simpa using hc
        rw [if_neg hskip]
        unfold Covers at hc
        split <;> split <;> omega

/-- Splitting every extent of a contiguous list into a contiguous list of its
own keeps the whole contiguous. -/
theorem contiguous_flatMap {ι : Type*} {f : ι → Extent} {g : ι → List Extent} :
    ∀ {is : List ι} {a b : ℕ}, Contiguous a (is.map f) b →
      (∀ i ∈ is, Contiguous (f i).1 (g i) ((f i).1 + (f i).2)) →
      Contiguous a (is.flatMap g) b
  | [], _, _, h, _ => h
  | i :: rest, a, b, h, hg => by
      rw [List.flatMap_cons, contiguous_append]
      have hi := hg i List.mem_cons_self
      have hfirst : (f i).1 = a := h.1
      rw [hfirst] at hi
      exact ⟨a + (f i).2, hi,
        contiguous_flatMap h.2 fun j hj => hg j (List.mem_cons_of_mem _ hj)⟩

theorem Contiguous.shift (d : ℕ) : ∀ {xs : List Extent} {a b : ℕ}, Contiguous a xs b →
    Contiguous (d + a) (xs.map fun x => (d + x.1, x.2)) (d + b)
  | [], _, _, h => congrArg (d + ·) h
  | x :: rest, a, b, h => by
      refine ⟨congrArg (d + ·) h.1, ?_⟩
      have := Contiguous.shift d h.2
      rwa [← Nat.add_assoc] at this

end CipherFS.Tiling
