import Mathlib

/-!
# Stable sorting

A stable sort by a key leaves elements with equal keys in the order in which it
found them, so what a relation says of such pairs can be read off either list.
-/

namespace CipherFS.StableSort

variable {α : Type} {le : α → α → Bool} {l : List α} {R : α → α → Prop}

/-! ## Keys -/

section Keys

variable {β γ : Type} [LE β] [LT β] [Std.IsLinearOrder β] [Std.LawfulOrderLT β]
  [DecidableLT β] [DecidableEq β] [LE γ] [Std.IsLinearOrder γ] [DecidableLE γ] (key : α → β) (key' : α → γ)

theorem key_trans (a b c : α) (hab : decide (key' a ≤ key' b) = true)
    (hbc : decide (key' b ≤ key' c) = true) : decide (key' a ≤ key' c) = true :=
  decide_eq_true (Std.le_trans (of_decide_eq_true hab) (of_decide_eq_true hbc))

theorem key_total (a b : α) :
    (decide (key' a ≤ key' b) || decide (key' b ≤ key' a)) = true := by
  rw [Bool.or_eq_true, decide_eq_true_eq, decide_eq_true_eq]
  exact Std.le_total

/-- By one key, and where that is equal by another. -/
theorem keys_trans (a b c : α)
    (hab : decide (key a < key b ∨ key a = key b ∧ key' a ≤ key' b) = true)
    (hbc : decide (key b < key c ∨ key b = key c ∧ key' b ≤ key' c) = true) :
    decide (key a < key c ∨ key a = key c ∧ key' a ≤ key' c) = true := by
  rw [decide_eq_true_eq] at *
  rcases hab with hab | ⟨hab, hle⟩
  · rcases hbc with hbc | ⟨hbc, -⟩
    · exact .inl (Std.lt_trans hab hbc)
    · exact .inl (hbc ▸ hab)
  · rcases hbc with hbc | ⟨hbc, hle'⟩
    · exact .inl (hab ▸ hbc)
    · exact .inr ⟨hab.trans hbc, Std.le_trans hle hle'⟩

theorem keys_total (a b : α) :
    (decide (key a < key b ∨ key a = key b ∧ key' a ≤ key' b) ||
      decide (key b < key a ∨ key b = key a ∧ key' b ≤ key' a)) = true := by
  rw [Bool.or_eq_true, decide_eq_true_eq, decide_eq_true_eq]
  rcases Std.lt_trichotomy (key a) (key b) with hlt | heq | hlt
  · exact .inl (.inl hlt)
  · exact (Std.le_total (a := key' a) (b := key' b)).imp (fun h => .inr ⟨heq, h⟩) fun h =>
      .inr ⟨heq.symm, h⟩
  · exact .inr (.inl hlt)

end Keys

/-! ## Ties -/

/-- The keys are equal. -/
def Tie (le : α → α → Bool) (a b : α) : Prop := le a b = true ∧ le b a = true

instance (a b : α) : Decidable (Tie le a b) :=
  inferInstanceAs (Decidable (le a b = true ∧ le b a = true))

/-- The elements with one key stay as they were. -/
theorem filter_mergeSort (trans : ∀ a b c, le a b = true → le b c = true → le a c = true)
    (total : ∀ a b, (le a b || le b a) = true) (k : α) :
    (l.mergeSort le).filter (Tie le k) = l.filter (Tie le k) := by
  have hsorted : (l.filter (Tie le k)).Pairwise fun a b => le a b = true := by
    refine List.pairwise_filter.mpr (List.pairwise_of_forall fun a b ha hb => ?_)
    exact trans a k b (of_decide_eq_true ha).2 (of_decide_eq_true hb).1
  have hsub := (List.sublist_mergeSort trans total hsorted List.filter_sublist).filter (Tie le k)
  simp only [List.filter_filter, Bool.and_self] at hsub
  have hlen := ((List.mergeSort_perm l le).filter fun b => decide (Tie le k b)).length_eq
  exact (hsub.eq_of_length hlen.symm).symm

/-- What holds of every two elements with equal keys, in the order of the list. -/
theorem pairwise_tie_iff (total : ∀ a b, (le a b || le b a) = true) :
    (l.Pairwise fun a b => Tie le a b → R a b) ↔
      ∀ k, (l.filter (Tie le k)).Pairwise fun a b => Tie le a b → R a b := by
  refine ⟨fun h k => h.sublist List.filter_sublist, fun h => ?_⟩
  refine List.pairwise_iff_forall_sublist.mpr fun {a b} hab htie => ?_
  have hself : Tie le a a := by
    have hrefl := total a a
    rw [Bool.or_self] at hrefl
    exact ⟨hrefl, hrefl⟩
  have hpair := hab.filter (Tie le a)
  have hboth : [a, b].filter (fun b => decide (Tie le a b)) = [a, b] := by
    simp [hself, htie]
  rw [hboth] at hpair
  exact List.pairwise_iff_forall_sublist.mp (h a) hpair htie

/-- **Sorting does not change what holds of the ties.** -/
theorem pairwise_tie_mergeSort (trans : ∀ a b c, le a b = true → le b c = true → le a c = true)
    (total : ∀ a b, (le a b || le b a) = true) :
    ((l.mergeSort le).Pairwise fun a b => Tie le a b → R a b) ↔
      l.Pairwise fun a b => Tie le a b → R a b := by
  rw [pairwise_tie_iff total, pairwise_tie_iff (l := l) total]
  refine forall_congr' fun k => ?_
  rw [filter_mergeSort trans total]

end CipherFS.StableSort
