import Mathlib

/-!
# Trees of named objects

A tree says what each path leads to. The operations change one path, or all
paths at and below one; each comes with what it does below a path and what it
leaves elsewhere.
-/

namespace CipherFS

/-- What each path leads to. -/
abbrev FileTree (N ν : Type) : Type := List N → Option ν

namespace FileTree

variable {N ν : Type} [DecidableEq N] {t u : FileTree N ν} {p q r src dst : List N} {n : ν}

/-- A new object at a path. -/
def put (t : FileTree N ν) (p : List N) (n : ν) : FileTree N ν := Function.update t p (some n)

/-- Removing the object at a path. -/
def remove (t : FileTree N ν) (p : List N) : FileTree N ν := Function.update t p none

/-- Removing what `gone` says of the objects at and below a path. -/
def prune (t : FileTree N ν) (p : List N) (gone : List N → Bool) : FileTree N ν := fun q =>
  if p <+: q ∧ gone q = true then none else t q

/-- Moving a path, with everything below it. -/
def move (t : FileTree N ν) (src dst : List N) : FileTree N ν := fun q =>
  if dst <+: q then t (src ++ q.drop dst.length) else if src <+: q then none else t q

/-- The trees differ at most where `T` holds. -/
def SameOutside (T : List N → Prop) (t u : FileTree N ν) : Prop := ∀ q, ¬T q → t q = u q

@[simp] theorem put_self : t.put p n p = some n := Function.update_self ..

theorem put_of_ne (h : q ≠ p) : t.put p n q = t q := Function.update_of_ne h ..

@[simp] theorem remove_self : t.remove p p = none := Function.update_self ..

theorem remove_of_ne (h : q ≠ p) : t.remove p q = t q := Function.update_of_ne h ..

theorem prune_all (h : p <+: q) : t.prune p (fun _ => true) q = none := if_pos ⟨h, rfl⟩

theorem prune_of_not_below {gone : List N → Bool} (h : ¬p <+: q) : t.prune p gone q = t q :=
  if_neg fun hq => h hq.1

/-- Removing a path where nothing is changes nothing. -/
theorem remove_of_none (h : t p = none) : t.remove p = t := by
  ext1 q
  by_cases hq : q = p
  · rw [hq, remove_self, h]
  · exact remove_of_ne hq

theorem remove_put (h : t p = none) : (t.put p n).remove p = t := by
  ext1 q
  by_cases hq : q = p
  · rw [hq, remove_self, h]
  · rw [remove_of_ne hq, put_of_ne hq]

theorem move_below (h : dst <+: q) : t.move src dst q = t (src ++ q.drop dst.length) := if_pos h

theorem move_append (rel : List N) : t.move src dst (dst ++ rel) = t (src ++ rel) := by
  rw [move_below (List.prefix_append dst rel), List.drop_left]

theorem move_source (h : src <+: q) (hd : ¬dst <+: q) : t.move src dst q = none := by
  rw [move, if_neg hd, if_pos h]

theorem move_elsewhere (hs : ¬src <+: q) (hd : ¬dst <+: q) : t.move src dst q = t q := by
  rw [move, if_neg hd, if_neg hs]

namespace SameOutside

variable {T : List N → Prop}

omit [DecidableEq N] in
theorem refl (t : FileTree N ν) : SameOutside T t t := fun _ _ => rfl

omit [DecidableEq N] in
theorem trans {v : FileTree N ν} (h : SameOutside T t u) (h' : SameOutside T u v) :
    SameOutside T t v := fun q hq => (h q hq).trans (h' q hq)

theorem put (h : T p) : SameOutside T (t.put p n) t :=
  fun _ hq => put_of_ne fun heq => hq (heq ▸ h)

theorem remove (h : T p) : SameOutside T (t.remove p) t :=
  fun _ hq => remove_of_ne fun heq => hq (heq ▸ h)

theorem prune {gone : List N → Bool} (h : ∀ q, p <+: q → T q) :
    SameOutside T (t.prune p gone) t :=
  fun q hq => prune_of_not_below fun hpq => hq (h q hpq)

end SameOutside

end FileTree

/-! ## Paths beside each other -/

section Paths

variable {N : Type} {p q r : List N} {a b : N}

/-- Two names in one directory are on different branches. -/
theorem not_prefix_sibling (h : a ≠ b) : ¬p ++ [a] <+: p ++ [b] := by
  intro hpre
  rw [List.prefix_append_right_inj] at hpre
  exact h (List.cons_prefix_cons.mp hpre).1

/-- What is below one path is not below a path beside it. -/
theorem not_prefix_of_sibling (h : a ≠ b) (hq : p ++ [a] <+: q) : ¬p ++ [b] <+: q := by
  obtain ⟨s, rfl⟩ := hq
  intro hpre
  rw [List.append_assoc, List.prefix_append_right_inj] at hpre
  exact h (List.cons_prefix_cons.mp hpre).1.symm

end Paths

end CipherFS
