import CipherFS.Framework.MsgPack

/-!
# Sequences that are deserialized

`serde::de::SeqAccess`: a sequence gives its elements one by one, fails or ends,
and may say how many it will give. A visitor that collects at most so many
elements accepts exactly the sequences that neither announce nor give more.
-/

namespace CipherFS

variable {σ α : Type}

/-- `SeqAccess` on a state. `none` is the error of the deserializer. -/
structure SeqAccess (σ α : Type) where
  sizeHint : σ → Option Nat
  nextElement : σ → Option (Option α × σ)

namespace SeqAccess

/-- The sequence gives these elements and ends. -/
inductive Yields (S : SeqAccess σ α) : σ → List α → σ → Prop
  | done {s s' : σ} (h : S.nextElement s = some (none, s')) : Yields S s [] s'
  | next {s s' s'' : σ} {a : α} {l : List α} (h : S.nextElement s = some (some a, s'))
      (hrest : Yields S s' l s'') : Yields S s (a :: l) s''

variable (S : SeqAccess σ α) (limit : Nat)

/-- The loop of a visitor that collects at most `limit` elements. -/
def collectLoop : Nat → List α → σ → Option (List α × σ)
  | 0, _, _ => none
  | fuel + 1, entries, s =>
    match S.nextElement s with
    | none => none
    | some (none, s) => some (entries, s)
    | some (some entry, s) =>
      if entries.length ≥ limit then none
      else collectLoop fuel (entries ++ [entry]) s

/-- A visitor that collects at most `limit` elements, and looks at the hint first. -/
def collect (s : σ) : Option (List α × σ) :=
  if (S.sizeHint s).any (· > limit) then none
  else collectLoop S limit (limit + 1) [] s

variable {S limit}

theorem collectLoop_eq_some {fuel : Nat} {entries l : List α} {s s' : σ}
    (hfuel : limit < entries.length + fuel) (hlimit : entries.length ≤ limit) :
    collectLoop S limit fuel entries s = some (l, s') ↔
      ∃ rest, l = entries ++ rest ∧ S.Yields s rest s' ∧ l.length ≤ limit := by
  induction fuel generalizing entries s with
  | zero => omega
  | succ fuel ih =>
      unfold collectLoop
      cases hnext : S.nextElement s with
      | none =>
          refine iff_of_false nofun ?_
          rintro ⟨rest, -, hyields, -⟩
          cases hyields with
          | done h => exact nomatch hnext.symm.trans h
          | next h => exact nomatch hnext.symm.trans h
      | some r =>
          obtain ⟨_ | a, s₁⟩ := r
          · -- the sequence ends here
            dsimp only
            rw [Option.some.injEq, Prod.mk.injEq]
            constructor
            · rintro ⟨rfl, rfl⟩
              exact ⟨[], (List.append_nil _).symm, .done hnext, hlimit⟩
            · rintro ⟨rest, rfl, hyields, -⟩
              cases hyields with
              | done h =>
                  rw [hnext] at h
                  cases h
                  exact ⟨(List.append_nil _).symm, rfl⟩
              | next h =>
                  rw [hnext] at h
                  cases h
          · dsimp only
            have hsame : (∃ rest, l = entries ++ rest ∧ S.Yields s rest s' ∧ l.length ≤ limit) ↔
                ∃ rest, l = (entries ++ [a]) ++ rest ∧ S.Yields s₁ rest s' ∧ l.length ≤ limit := by
              constructor
              · rintro ⟨rest, hl, hyields, hlen⟩
                cases hyields with
                | done h =>
                    rw [hnext] at h
                    cases h
                | next h hrest =>
                    rw [hnext] at h
                    cases h
                    exact ⟨_, by rw [hl, List.append_assoc, List.singleton_append], hrest, hlen⟩
              · rintro ⟨rest, hl, hyields, hlen⟩
                exact ⟨a :: rest, by rw [hl, List.append_assoc, List.singleton_append],
                  .next hnext hyields, hlen⟩
            rw [hsame]
            by_cases hfull : entries.length ≥ limit
            · rw [if_pos hfull]
              refine iff_of_false nofun ?_
              rintro ⟨rest, rfl, -, hlen⟩
              rw [List.length_append, List.length_append, List.length_singleton] at hlen
              omega
            · rw [if_neg hfull]
              refine ih ?_ ?_
              · rw [List.length_append, List.length_singleton]
                omega
              · rw [List.length_append, List.length_singleton]
                omega

/-- **The visitor accepts a sequence exactly when it neither announces nor gives
more elements than allowed**, and then collects them in their order. -/
theorem collect_eq_some {l : List α} {s s' : σ} : S.collect limit s = some (l, s') ↔
    (∀ n ∈ S.sizeHint s, n ≤ limit) ∧ S.Yields s l s' ∧ l.length ≤ limit := by
  have hhint : (S.sizeHint s).any (· > limit) = true ↔ ¬∀ n ∈ S.sizeHint s, n ≤ limit := by
    cases S.sizeHint s with
    | none => simp
    | some n => simp
  have hloop : S.collectLoop limit (limit + 1) [] s = some (l, s') ↔
      ∃ rest, l = [] ++ rest ∧ S.Yields s rest s' ∧ l.length ≤ limit :=
    collectLoop_eq_some (by rw [List.length_nil]; omega) (Nat.zero_le _)
  unfold collect
  by_cases h : ∀ n ∈ S.sizeHint s, n ≤ limit
  · rw [if_neg (fun hany => hhint.mp hany h), hloop]
    simp only [List.nil_append, exists_eq_left', and_iff_right h]
  · rw [if_pos (hhint.mpr h)]
    exact iff_of_false nofun fun hand => h hand.1

end SeqAccess

/-! ## MessagePack arrays -/

open MsgPack

/-- The elements of a MessagePack array: so many are left, in front of this input. -/
def arrayAccess (d : Decoder α) : SeqAccess (Nat × Bytes) α where
  sizeHint s := some s.1
  nextElement
    | (0, input) => some (none, (0, input))
    | (left + 1, input) => (d input).map fun (a, rest) => (some a, (left, rest))

/-- What the elements are read from. -/
theorem yields_arrayAccess {d : Decoder α} {tokens : List Bytes} {l : List α}
    (h : List.Forall₂ (fun t a => Reads d t a) tokens l) (rest : Bytes) :
    (arrayAccess d).Yields (l.length, tokens.flatten ++ rest) l (0, rest) := by
  induction h with
  | nil => exact .done rfl
  | @cons t a tokens l hhead _ ih =>
      refine .next ?_ ih
      rw [List.flatten_cons, List.append_assoc, List.length_cons]
      show (d (t ++ (tokens.flatten ++ rest))).map _ = _
      rw [hhead]
      rfl

/-- An array gives as many elements as it declares. -/
theorem length_of_yields {d : Decoder α} {s s' : Nat × Bytes} {l : List α}
    (h : (arrayAccess d).Yields s l s') : l.length = s.1 ∧ s'.1 = 0 := by
  induction h with
  | @done s s' h =>
      obtain ⟨left, input⟩ := s
      cases left with
      | zero =>
          cases h
          exact ⟨rfl, rfl⟩
      | succ left =>
          obtain ⟨r, -, hr⟩ := Option.map_eq_some_iff.mp h
          cases hr
  | @next s s₁ s₂ a l h _ ih =>
      obtain ⟨left, input⟩ := s
      cases left with
      | zero => cases h
      | succ left =>
          obtain ⟨r, -, hr⟩ := Option.map_eq_some_iff.mp h
          cases hr
          exact ⟨by rw [List.length_cons, ih.1], ih.2⟩

end CipherFS
