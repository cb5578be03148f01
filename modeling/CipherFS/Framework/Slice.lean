import Mathlib

/-!
# Slices of a list

`slice l a b` holds the elements at positions `a` to `b`, as far as the list
reaches. Adjacent slices join, and dropping or taking from a slice moves one of
its ends.
-/

namespace CipherFS

variable {α : Type*}

def slice (l : List α) (a b : ℕ) : List α := (l.drop a).take (b - a)

variable {l l' : List α} {a b c : ℕ}

theorem length_slice : (slice l a b).length = min b l.length - a := by
  rw [slice, List.length_take, List.length_drop]
  omega

theorem slice_eq_nil (h : b ≤ a) : slice l a b = [] := by
  rw [slice, Nat.sub_eq_zero_of_le h, List.take_zero]

theorem slice_zero_length (h : l.length ≤ b) : slice l 0 b = l := by
  rw [slice, List.drop_zero, Nat.sub_zero, List.take_of_length_le h]

theorem slice_append_slice (hab : a ≤ b) (hbc : b ≤ c) :
    slice l a b ++ slice l b c = slice l a c := by
  have hc : c - a = (b - a) + (c - b) := by omega
  have hb : b = a + (b - a) := by omega
  rw [slice, slice, slice, hc, List.take_add, List.drop_drop, ← hb]

theorem drop_slice (k : ℕ) : (slice l a b).drop k = slice l (a + k) b := by
  rw [slice, slice, List.drop_take, List.drop_drop, Nat.sub_sub]

theorem take_slice (k : ℕ) : (slice l a b).take k = slice l a (min (a + k) b) := by
  have hk : min k (b - a) = min (a + k) b - a := by omega
  rw [slice, slice, List.take_take, hk]

theorem slice_append_left (h : b ≤ l.length) : slice (l ++ l') a b = slice l a b := by
  by_cases hab : b ≤ a
  · rw [slice_eq_nil hab, slice_eq_nil hab]
  · rw [slice, slice, List.drop_append_of_le_length (by omega), List.take_append_of_le_length]
    rw [List.length_drop]
    omega

theorem slice_append_right (h : l.length ≤ a) :
    slice (l ++ l') a b = slice l' (a - l.length) (b - l.length) := by
  have hsub : b - l.length - (a - l.length) = b - a := by omega
  rw [slice, slice, List.drop_append, List.drop_eq_nil_of_le h, List.nil_append, hsub]

end CipherFS
