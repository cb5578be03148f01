import Mathlib

/-!
# Byte strings

`[u8; n]` is a list of bytes that carries its length; variable-length byte
strings are plain lists. Fixed-width little-endian encodings are injective
below their bound and have the width they name.
-/

namespace CipherFS

/-- A byte string of any length: `Vec<u8>`, `&[u8]`. -/
abbrev Bytes : Type := List UInt8

/-- `[u8; n]`. -/
abbrev ByteArr (n : Nat) : Type := { l : Bytes // l.length = n }

namespace ByteArr

/-- `[0; n]`. -/
def zero (n : Nat) : ByteArr n := ⟨List.replicate n 0, List.length_replicate⟩

@[simp] theorem length_val {n : Nat} (b : ByteArr n) : b.val.length = n := b.property

/-- `copy_from_slice`: `none` is the panic on a length mismatch. -/
def ofList? (n : Nat) (l : Bytes) : Option (ByteArr n) :=
  if h : l.length = n then some ⟨l, h⟩ else none

@[simp] theorem ofList?_eq_some {n : Nat} {l : Bytes} {b : ByteArr n} :
    ofList? n l = some b ↔ l = b.val := by
  unfold ofList?
  split
  · rename_i h
    simp [Subtype.ext_iff]
  · rename_i h
    simp only [reduceCtorEq, false_iff]
    rintro rfl
    exact h b.property

instance decidableMem {n : Nat} (a : ByteArr n) (as : List (ByteArr n)) : Decidable (a ∈ as) :=
  inferInstanceAs (Decidable (a ∈ as))

end ByteArr

/-- `to_le_bytes` at a width. -/
def leBytes : Nat → Nat → Bytes
  | 0, _ => []
  | w + 1, n => UInt8.ofNat n :: leBytes w (n / 256)

@[simp] theorem length_leBytes : ∀ w n : Nat, (leBytes w n).length = w
  | 0, _ => rfl
  | w + 1, n => by rw [leBytes, List.length_cons, length_leBytes w]

theorem leBytes_inj : ∀ {w m n : Nat}, m < 256 ^ w → n < 256 ^ w →
    leBytes w m = leBytes w n → m = n
  | 0, m, n, hm, hn, _ => by
      simp only [Nat.pow_zero] at hm hn
      omega
  | w + 1, m, n, hm, hn, h => by
      rw [leBytes, leBytes, List.cons.injEq] at h
      have hlow : m % 256 = n % 256 := by
        simpa using congrArg UInt8.toNat h.1
      have hhigh : m / 256 = n / 256 :=
        leBytes_inj (Nat.div_lt_of_lt_mul (by rwa [Nat.pow_succ, Nat.mul_comm] at hm))
          (Nat.div_lt_of_lt_mul (by rwa [Nat.pow_succ, Nat.mul_comm] at hn)) h.2
      omega

end CipherFS
