import CipherFS.Framework.Bytes

/-!
# Readers

`std::io::Read`: a call returns some of the bytes it asks for, as many as the
reader likes, or is interrupted. `read_exact` calls until its buffer is full, and
what it gives does not depend on how the calls have split the stream.
-/

namespace CipherFS

/-- How one call of `read` goes: `upTo n` returns at most `n + 1` bytes. -/
inductive Turn where
  | interrupted
  | failed (text : String)
  | upTo (n : Nat)
deriving DecidableEq, Repr

/-- The errors of `read` and `read_exact`. -/
inductive ReadError where
  | interrupted
  | unexpectedEof
  | failed (text : String)
deriving DecidableEq, Repr

/-- The text of an error. -/
def ReadError.text : ReadError → String
  | .interrupted => "operation interrupted"
  | .unexpectedEof => "failed to fill whole buffer"
  | .failed text => text

/-- A reader: the bytes before the end of its stream, and how the next calls go.
Later calls fill their buffers as far as there are bytes. -/
structure ByteReader where
  rest : Bytes
  turns : List Turn
deriving DecidableEq, Repr

namespace ByteReader

/-- `Read::read` with a buffer of `n` bytes. -/
def read (r : ByteReader) (n : Nat) : Except ReadError Bytes × ByteReader :=
  match r.turns with
  | [] => (.ok (r.rest.take n), ⟨r.rest.drop n, []⟩)
  | .interrupted :: turns => (.error .interrupted, ⟨r.rest, turns⟩)
  | .failed text :: turns => (.error (.failed text), ⟨r.rest, turns⟩)
  | .upTo k :: turns =>
      (.ok (r.rest.take (min n (k + 1))), ⟨r.rest.drop (min n (k + 1)), turns⟩)

/-- The loop of `Read::read_exact`, which gives up on no bytes and not on an
interruption. -/
def readExactLoop : Nat → Nat → ByteReader → Except ReadError Bytes × ByteReader
  | 0, _, r => (.error .unexpectedEof, r)
  | fuel + 1, n, r =>
    if n = 0 then (.ok [], r)
    else
      match r.read n with
      | (.ok [], r) => (.error .unexpectedEof, r)
      | (.ok (b :: got), r) =>
          let (more, r) := readExactLoop fuel (n - (b :: got).length) r
          (more.map ((b :: got) ++ ·), r)
      | (.error .interrupted, r) => readExactLoop fuel n r
      | (.error e, r) => (.error e, r)

/-- `Read::read_exact`: each call uses up one of the turns or a byte. -/
def readExact (n : Nat) (r : ByteReader) : Except ReadError Bytes × ByteReader :=
  readExactLoop (r.turns.length + n + 1) n r

/-- A reader without other errors than interruptions. -/
def Steady (r : ByteReader) : Prop := ∀ text, .failed text ∉ r.turns

variable {r : ByteReader} {n : Nat}

theorem Steady.of_suffix {turns : List Turn} {rest : Bytes} (h : r.Steady)
    (hturns : turns <:+ r.turns) : Steady ⟨rest, turns⟩ :=
  fun text hmem => h text (hturns.mem hmem)

/-- A call that is not interrupted returns what is next in the stream. -/
theorem read_cases (h : r.Steady) (hn : 0 < n) :
    (∃ turns, r.turns = .interrupted :: turns ∧ r.read n = (.error .interrupted, ⟨r.rest, turns⟩)) ∨
      ∃ k turns, k ≤ n ∧ k ≤ r.rest.length ∧ (k = 0 → r.rest = []) ∧ turns <:+ r.turns ∧
        r.read n = (.ok (r.rest.take k), ⟨r.rest.drop k, turns⟩) := by
  have hfull : ∀ m turns, 0 < m → m ≤ n → turns <:+ r.turns →
      r.read n = (.ok (r.rest.take m), ⟨r.rest.drop m, turns⟩) →
      ∃ k turns, k ≤ n ∧ k ≤ r.rest.length ∧ (k = 0 → r.rest = []) ∧ turns <:+ r.turns ∧
        r.read n = (.ok (r.rest.take k), ⟨r.rest.drop k, turns⟩) := by
    intro m turns hm hmn hturns hread
    refine ⟨min m r.rest.length, turns, by omega, Nat.min_le_right _ _, ?_, hturns, ?_⟩
    · intro hzero
      exact List.eq_nil_of_length_eq_zero (by omega)
    · rw [hread, ← List.take_eq_take_min, ← List.drop_eq_drop_min]
  unfold read at hfull ⊢
  split at hfull
  · rename_i hturns
    exact .inr (hfull n [] hn (Nat.le_refl _) List.nil_suffix rfl)
  · rename_i turns hturns
    exact .inl ⟨turns, hturns, rfl⟩
  · rename_i text turns hturns
    exact absurd (hturns ▸ List.mem_cons_self) (h text)
  · rename_i k turns hturns
    have hsuffix : turns <:+ r.turns := hturns ▸ List.suffix_cons _ _
    exact .inr (hfull _ turns (by omega) (Nat.min_le_left _ _) hsuffix rfl)

/-- What `read_exact` gives at a stream: the bytes, or the end of the stream. -/
def exactly (n : Nat) (rest : Bytes) : Except ReadError Bytes × Bytes :=
  if n ≤ rest.length then (.ok (rest.take n), rest.drop n) else (.error .unexpectedEof, [])

theorem exactly_step {k : Nat} {rest : Bytes} (hk : k ≤ n) (hlen : k ≤ rest.length) :
    exactly n rest = ((exactly (n - k) (rest.drop k)).1.map (rest.take k ++ ·),
      (exactly (n - k) (rest.drop k)).2) := by
  unfold exactly
  rw [List.length_drop]
  by_cases hn : n ≤ rest.length
  · rw [if_pos hn, if_pos (by omega)]
    have htake : rest.take n = rest.take k ++ (rest.drop k).take (n - k) := by
      rw [← List.take_add, Nat.add_sub_cancel' hk]
    have hdrop : rest.drop n = (rest.drop k).drop (n - k) := by
      rw [List.drop_drop, Nat.add_sub_cancel' hk]
    rw [htake, hdrop]
    rfl
  · rw [if_neg hn, if_neg (by omega)]
    rfl

theorem readExactLoop_eq {fuel : Nat} (h : r.Steady) (hfuel : r.turns.length + n < fuel) :
    ∃ turns, turns <:+ r.turns ∧
      readExactLoop fuel n r = ((exactly n r.rest).1, ⟨(exactly n r.rest).2, turns⟩) := by
  induction fuel generalizing n r with
  | zero => exact absurd hfuel (Nat.not_lt_zero _)
  | succ fuel ih =>
      unfold readExactLoop
      by_cases hn : n = 0
      · rw [if_pos hn, hn]
        exact ⟨r.turns, List.suffix_rfl, rfl⟩
      rw [if_neg hn]
      rcases read_cases h (Nat.pos_of_ne_zero hn) with
        ⟨turns, hturns, hread⟩ | ⟨k, turns, hkn, hlen, hend, hturns, hread⟩
      · -- an interruption uses up a turn
        rw [hread]
        have hsuffix : turns <:+ r.turns := hturns ▸ List.suffix_cons _ _
        have hshort : turns.length + n < fuel := by
          rw [hturns, List.length_cons] at hfuel
          omega
        obtain ⟨turns', hturns', hloop⟩ := ih (h.of_suffix hsuffix) hshort
        exact ⟨turns', hturns'.trans hsuffix, hloop⟩
      · rw [hread]
        have hlength : (r.rest.take k).length = k := List.length_take_of_le hlen
        cases hgot : r.rest.take k with
        | nil =>
            -- nothing is left of the stream
            have hrest : r.rest = [] := hend (by rw [← hlength, hgot, List.length_nil])
            refine ⟨turns, hturns, ?_⟩
            rw [exactly, if_neg (by rw [hrest, List.length_nil]; omega), hrest, List.drop_nil]
        | cons b got =>
            have hk : (b :: got).length = k := by rw [← hgot, hlength]
            have hpos : 0 < k := hk ▸ Nat.succ_pos _
            have hle := hturns.length_le
            obtain ⟨turns', hturns', hloop⟩ :=
              ih (h.of_suffix hturns) (show turns.length + (n - k) < fuel by omega)
            refine ⟨turns', hturns'.trans hturns, ?_⟩
            rw [← hk] at hloop
            rw [exactly_step hkn hlen, hgot, ← hk]
            show (let (more, r) := readExactLoop fuel (n - (b :: got).length) _
              (more.map ((b :: got) ++ ·), r)) = _
            rw [hloop]

/-- **However the calls split the stream, `read_exact` gives the next bytes.** -/
theorem readExact_eq (h : r.Steady) : ∃ turns, turns <:+ r.turns ∧
    readExact n r = ((exactly n r.rest).1, ⟨(exactly n r.rest).2, turns⟩) :=
  readExactLoop_eq h (Nat.lt_succ_self _)

theorem readExact_of_le (h : r.Steady) (hn : n ≤ r.rest.length) : ∃ turns, turns <:+ r.turns ∧
    readExact n r = (.ok (r.rest.take n), ⟨r.rest.drop n, turns⟩) := by
  obtain ⟨turns, hturns, hread⟩ := readExact_eq h (n := n)
  rw [exactly, if_pos hn] at hread
  exact ⟨turns, hturns, hread⟩

theorem readExact_of_lt (h : r.Steady) (hn : r.rest.length < n) : ∃ turns, turns <:+ r.turns ∧
    readExact n r = (.error .unexpectedEof, ⟨[], turns⟩) := by
  obtain ⟨turns, hturns, hread⟩ := readExact_eq h (n := n)
  rw [exactly, if_neg (Nat.not_le_of_lt hn)] at hread
  exact ⟨turns, hturns, hread⟩

end ByteReader

end CipherFS
