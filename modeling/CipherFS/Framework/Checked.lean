import Mathlib

/-!
# Checked machine arithmetic

The `checked_*` operations on 64-bit and 32-bit words, each with one
characterization through `toNat`: the operation answers `c` exactly when `c`
denotes the exact result. Nothing downstream looks below these lemmas.
-/

namespace CipherFS

/-- `u64::checked_add`. -/
def checkedAdd (a b : UInt64) : Option UInt64 :=
  if a.toNat + b.toNat < 2 ^ 64 then some (a + b) else none

/-- `u64::checked_mul`. -/
def checkedMul (a b : UInt64) : Option UInt64 :=
  if a.toNat * b.toNat < 2 ^ 64 then some (a * b) else none

/-- `u64::checked_sub`. -/
def checkedSub (a b : UInt64) : Option UInt64 :=
  if b.toNat ≤ a.toNat then some (a - b) else none

/-- `u32::checked_add`. -/
def checkedAdd32 (a b : UInt32) : Option UInt32 :=
  if a.toNat + b.toNat < 2 ^ 32 then some (a + b) else none

/-- `u64::saturating_sub`. -/
def saturatingSub (a b : UInt64) : UInt64 :=
  if b.toNat ≤ a.toNat then a - b else 0

/-- `u64::saturating_add`. -/
def saturatingAdd (a b : UInt64) : UInt64 :=
  (checkedAdd a b).getD (UInt64.ofNat (2 ^ 64 - 1))

/-- `try_fold(0, checked_add)`: the sum of a list, or `none` on overflow. -/
def checkedSum (xs : List UInt64) : Option UInt64 :=
  xs.foldlM checkedAdd 0

theorem checkedAdd_eq_some_iff {a b c : UInt64} :
    checkedAdd a b = some c ↔ c.toNat = a.toNat + b.toNat := by
  have hc := c.toNat_lt
  unfold checkedAdd
  split
  · rename_i h
    rw [Option.some.injEq, ← UInt64.toNat_inj, UInt64.toNat_add,
      Nat.mod_eq_of_lt h, eq_comm]
  · simp only [reduceCtorEq, false_iff]
    omega

theorem checkedMul_eq_some_iff {a b c : UInt64} :
    checkedMul a b = some c ↔ c.toNat = a.toNat * b.toNat := by
  have hc := c.toNat_lt
  unfold checkedMul
  split
  · rename_i h
    rw [Option.some.injEq, ← UInt64.toNat_inj, UInt64.toNat_mul,
      Nat.mod_eq_of_lt h, eq_comm]
  · simp only [reduceCtorEq, false_iff]
    omega

theorem toNat_sub_of_toNat_le {a b : UInt64} (h : b.toNat ≤ a.toNat) :
    (a - b).toNat = a.toNat - b.toNat :=
  UInt64.toNat_sub_of_le a b (UInt64.le_iff_toNat_le.mpr h)

theorem checkedSub_eq_some_iff {a b c : UInt64} :
    checkedSub a b = some c ↔ c.toNat + b.toNat = a.toNat := by
  unfold checkedSub
  split
  · rename_i h
    rw [Option.some.injEq, ← UInt64.toNat_inj, toNat_sub_of_toNat_le h]
    omega
  · simp only [reduceCtorEq, false_iff]
    omega

theorem checkedAdd32_eq_some_iff {a b c : UInt32} :
    checkedAdd32 a b = some c ↔ c.toNat = a.toNat + b.toNat := by
  have hc := c.toNat_lt
  unfold checkedAdd32
  split
  · rename_i h
    rw [Option.some.injEq, ← UInt32.toNat_inj, UInt32.toNat_add,
      Nat.mod_eq_of_lt h, eq_comm]
  · simp only [reduceCtorEq, false_iff]
    omega

/-- A word for every number below `2 ^ 64`. -/
theorem exists_toNat_eq {n : Nat} (h : n < 2 ^ 64) : ∃ c : UInt64, c.toNat = n :=
  ⟨UInt64.ofNat n, UInt64.toNat_ofNat_of_lt' h⟩

theorem exists_checkedAdd {a b : UInt64} (h : a.toNat + b.toNat < 2 ^ 64) :
    ∃ c, checkedAdd a b = some c ∧ c.toNat = a.toNat + b.toNat := by
  obtain ⟨c, hc⟩ := exists_toNat_eq h
  exact ⟨c, checkedAdd_eq_some_iff.mpr hc, hc⟩

theorem exists_checkedMul {a b : UInt64} (h : a.toNat * b.toNat < 2 ^ 64) :
    ∃ c, checkedMul a b = some c ∧ c.toNat = a.toNat * b.toNat := by
  obtain ⟨c, hc⟩ := exists_toNat_eq h
  exact ⟨c, checkedMul_eq_some_iff.mpr hc, hc⟩

theorem exists_checkedSub {a b : UInt64} (h : b.toNat ≤ a.toNat) :
    ∃ c, checkedSub a b = some c ∧ c.toNat + b.toNat = a.toNat := by
  have ha := a.toNat_lt
  obtain ⟨c, hc⟩ := exists_toNat_eq (n := a.toNat - b.toNat) (by omega)
  have hsum : c.toNat + b.toNat = a.toNat := by omega
  exact ⟨c, checkedSub_eq_some_iff.mpr hsum, hsum⟩

theorem toNat_saturatingSub (a b : UInt64) :
    (saturatingSub a b).toNat = a.toNat - b.toNat := by
  unfold saturatingSub
  split
  · rename_i h
    exact toNat_sub_of_toNat_le h
  · rename_i h
    have : a.toNat - b.toNat = 0 := by omega
    rw [this]
    rfl

theorem toNat_min (a b : UInt64) : (min a b).toNat = min a.toNat b.toNat := by
  change (if a ≤ b then a else b).toNat = _
  simp only [UInt64.le_iff_toNat_le]
  split <;> omega

theorem toNat_max (a b : UInt64) : (max a b).toNat = max a.toNat b.toNat := by
  change (if a ≤ b then b else a).toNat = _
  simp only [UInt64.le_iff_toNat_le]
  split <;> omega

theorem foldlM_checkedAdd_eq_some_iff {xs : List UInt64} : ∀ {s t : UInt64},
    xs.foldlM checkedAdd s = some t ↔
      t.toNat = s.toNat + (xs.map UInt64.toNat).sum := by
  induction xs with
  | nil => simp [UInt64.toNat_inj, eq_comm]
  | cons x xs ih =>
      intro s t
      simp only [List.foldlM_cons, Option.bind_eq_bind, Option.bind_eq_some_iff,
        checkedAdd_eq_some_iff, ih, List.map_cons, List.sum_cons]
      constructor
      · rintro ⟨m, hm, ht⟩
        omega
      · intro ht
        have hlt := t.toNat_lt
        obtain ⟨m, hm⟩ := exists_toNat_eq (n := s.toNat + x.toNat) (by omega)
        exact ⟨m, hm, by omega⟩

theorem checkedSum_eq_some_iff {xs : List UInt64} {t : UInt64} :
    checkedSum xs = some t ↔ t.toNat = (xs.map UInt64.toNat).sum := by
  rw [checkedSum, foldlM_checkedAdd_eq_some_iff]
  simp

end CipherFS
