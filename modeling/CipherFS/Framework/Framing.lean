import CipherFS.Framework.Bytes

/-!
# Frames in a stream

A frame is a payload behind its length in four bytes. The reader has a prefix of
the stream before it, which ends inside a frame if the writer has not come
further: it waits for the rest, or learns that there is none.
-/

namespace CipherFS

/-- The number that `leBytes` has written. -/
def ofLe : Bytes → Nat
  | [] => 0
  | b :: bs => b.toNat + 256 * ofLe bs

theorem ofLe_leBytes : ∀ {w n : Nat}, n < 256 ^ w → ofLe (leBytes w n) = n
  | 0, n, h => by
      rw [Nat.pow_zero, Nat.lt_one_iff] at h
      rw [h]
      rfl
  | w + 1, n, h => by
      have hhigh : n / 256 < 256 ^ w := by
        apply Nat.div_lt_of_lt_mul
        rwa [Nat.pow_succ, Nat.mul_comm] at h
      rw [leBytes, ofLe, ofLe_leBytes hhigh, UInt8.toNat_ofNat']
      exact Nat.mod_add_div n 256

namespace Framing

/-- A payload behind its length. -/
def frame (payload : Bytes) : Bytes := leBytes 4 payload.length ++ payload

/-- What the reader comes to. -/
inductive Incoming where
  | blocked
  | closed
  | truncatedLength
  | tooLarge
  | empty
  | truncated
  | payload (payload rest : Bytes)
deriving DecidableEq, Repr

/-- Reading one frame of at most `limit` bytes, where `closed` tells that nothing
will follow. -/
def read (limit : Nat) (closed : Bool) (stream : Bytes) : Incoming :=
  if stream = [] then if closed then .closed else .blocked
  else if stream.length < 4 then if closed then .truncatedLength else .blocked
  else
    let length := ofLe (stream.take 4)
    if limit < length then .tooLarge
    else if length = 0 then .empty
    else if stream.length < 4 + length then if closed then .truncated else .blocked
    else .payload ((stream.drop 4).take length) (stream.drop (4 + length))

variable {limit : Nat} {closed : Bool} {stream rest payload stream' : Bytes}

/-- The reader of a closed stream does not wait. -/
theorem read_closed : read limit true stream ≠ .blocked := by
  intro h
  unfold read at h
  simp only [↓reduceIte] at h
  split_ifs at h

theorem read_eq_payload (h : read limit closed stream = .payload payload stream') :
    4 + ofLe (stream.take 4) ≤ stream.length ∧
      payload = (stream.drop 4).take (ofLe (stream.take 4)) ∧
      stream' = stream.drop (4 + ofLe (stream.take 4)) := by
  unfold read at h
  dsimp only at h
  split_ifs at h
  rename_i hlength
  obtain ⟨rfl, rfl⟩ := Incoming.payload.inj h
  exact ⟨Nat.le_of_not_lt hlength, rfl, rfl⟩

/-- A frame is consumed. -/
theorem length_lt_of_read (h : read limit closed stream = .payload payload stream') :
    stream'.length < stream.length := by
  obtain ⟨hle, -, rfl⟩ := read_eq_payload h
  rw [List.length_drop]
  omega

/-- **Wherever the stream is cut, the reader gets the frames that were written, in
their order, or none.** -/
theorem read_prefix {payloads : List Bytes} (hstream : stream ++ rest = payloads.flatMap frame)
    (hsize : ∀ p ∈ payloads, p.length < 256 ^ 4)
    (h : read limit closed stream = .payload payload stream') :
    ∃ tail, payloads = payload :: tail ∧ stream' ++ rest = tail.flatMap frame := by
  obtain ⟨hle, hpayload, hstream'⟩ := read_eq_payload h
  cases payloads with
  | nil =>
      have hnil : stream = [] := (List.append_eq_nil_iff.mp hstream).1
      rw [hnil] at hle
      exact absurd hle (by simp)
  | cons q tail =>
      rw [List.flatMap_cons, frame, List.append_assoc] at hstream
      have hfour : 4 ≤ stream.length := by omega
      have hpre : stream.take 4 = leBytes 4 q.length := by
        have htake := congrArg (List.take 4) hstream
        rwa [List.take_append_of_le_length hfour, List.take_left' (length_leBytes 4 _)] at htake
      have hlen : ofLe (stream.take 4) = q.length := by
        rw [hpre, ofLe_leBytes (hsize q List.mem_cons_self)]
      have hafter : stream.drop 4 ++ rest = q ++ tail.flatMap frame := by
        have hdrop := congrArg (List.drop 4) hstream
        rwa [List.drop_append_of_le_length hfour, List.drop_left' (length_leBytes 4 _)] at hdrop
      rw [hlen] at hle hpayload hstream'
      have hq : q.length ≤ (stream.drop 4).length := by
        rw [List.length_drop]
        omega
      refine ⟨tail, ?_, ?_⟩
      · have htake := congrArg (List.take q.length) hafter
        rw [List.take_append_of_le_length hq, List.take_left] at htake
        rw [hpayload, htake]
      · have hdrop := congrArg (List.drop q.length) hafter
        rw [List.drop_append_of_le_length hq, List.drop_left, List.drop_drop] at hdrop
        rw [hstream', hdrop]

/-- A stream that is cut holds some of its parts, and at most the front of another. -/
theorem exists_cut {α : Type} {parts : α → Bytes} {xs : List α} {cut missing : Bytes}
    (h : cut ++ missing = xs.flatMap parts) : ∃ before after, xs = before ++ after ∧
      (cut = before.flatMap parts ∨ ∃ x more front behind, after = x :: more ∧
        cut = before.flatMap parts ++ front ∧ front ++ behind = parts x ∧
        front ≠ [] ∧ behind ≠ []) := by
  induction xs generalizing cut with
  | nil => exact ⟨[], [], rfl, .inl (List.append_eq_nil_iff.mp h).1⟩
  | cons x xs ih =>
      rw [List.flatMap_cons] at h
      rcases List.append_eq_append_iff.mp h with ⟨behind, hx, -⟩ | ⟨tail, rfl, hrest⟩
      · -- the cut is within the first part, or at one of its ends
        by_cases hcut : cut = []
        · exact ⟨[], x :: xs, rfl, .inl hcut⟩
        by_cases hbehind : behind = []
        · refine ⟨[x], xs, rfl, .inl ?_⟩
          rw [List.flatMap_singleton, hx, hbehind, List.append_nil]
        · exact ⟨[], x :: xs, rfl, .inr ⟨x, xs, cut, behind, rfl, rfl, hx.symm, hcut, hbehind⟩⟩
      · obtain ⟨before, after, rfl, hcut | ⟨y, more, front, behind, hy, hcut, hfront⟩⟩ :=
          ih hrest.symm
        · exact ⟨x :: before, after, rfl, .inl (by rw [hcut, List.flatMap_cons])⟩
        · refine ⟨x :: before, after, rfl, .inr ⟨y, more, front, behind, hy, ?_, hfront⟩⟩
          rw [hcut, List.flatMap_cons, List.append_assoc]

/-! ## A closed stream -/

/-- What a reader of a closed stream leaves of it. -/
def left (limit : Nat) (stream : Bytes) : Bytes :=
  match read limit true stream with
  | .payload _ rest => rest
  | .tooLarge => stream.drop 4
  | .empty => stream.drop 4
  | _ => []

/-- The length that a stream declares. -/
theorem read_declared {length : Nat} (h : length < 256 ^ 4) :
    read limit closed (leBytes 4 length ++ rest) =
      if limit < length then .tooLarge
      else if length = 0 then .empty
      else if rest.length < length then if closed then .truncated else .blocked
      else .payload (rest.take length) (rest.drop length) := by
  have hfour : (leBytes 4 length).length = 4 := length_leBytes 4 length
  have hne : leBytes 4 length ++ rest ≠ [] := by
    intro hnil
    rw [(List.append_eq_nil_iff.mp hnil).1] at hfour
    cases hfour
  have hlong : ¬(leBytes 4 length ++ rest).length < 4 := by
    rw [List.length_append, hfour]
    omega
  unfold read
  rw [if_neg hne, if_neg hlong]
  dsimp only
  rw [List.take_left' hfour, List.drop_left' hfour, ofLe_leBytes h, ← List.drop_drop,
    List.drop_left' hfour, List.length_append, hfour]
  simp only [Nat.add_lt_add_iff_left]

theorem drop_declared {length : Nat} : (leBytes 4 length ++ rest).drop 4 = rest :=
  List.drop_left' (length_leBytes 4 length)

/-- A frame at the front of a stream is read. -/
theorem read_frame_append (hpos : 0 < payload.length) (hlimit : payload.length ≤ limit)
    (hsize : payload.length < 256 ^ 4) :
    read limit closed (frame payload ++ rest) = .payload payload rest := by
  rw [frame, List.append_assoc, read_declared hsize, if_neg (by omega), if_neg (by omega),
    if_neg (by rw [List.length_append]; omega), List.take_left, List.drop_left]

/-- A frame that is cut off is no frame. -/
theorem read_cut {part missing : Bytes} (hframe : part ++ missing = frame payload)
    (hpart : part ≠ []) (hmissing : missing ≠ []) (hlimit : payload.length ≤ limit)
    (hpos : 0 < payload.length) (hsize : payload.length < 256 ^ 4) :
    read limit true part = .truncatedLength ∨ read limit true part = .truncated := by
  by_cases hshort : part.length < 4
  · left
    unfold read
    rw [if_neg hpart, if_pos hshort]
    rfl
  · right
    -- the length is there, and counts more than follows it
    have hfour : (leBytes 4 payload.length).length = 4 := length_leBytes 4 _
    obtain ⟨more, rfl, hpayload⟩ : ∃ more, part = leBytes 4 payload.length ++ more ∧
        payload = more ++ missing := by
      rw [frame] at hframe
      rcases List.append_eq_append_iff.mp hframe with
        ⟨more, hpre, hrest⟩ | ⟨more, hpart, hrest⟩
      · have hle := congrArg List.length hpre
        rw [List.length_append, hfour] at hle
        have hnil : more = [] := List.eq_nil_of_length_eq_zero (by omega)
        rw [hnil, List.append_nil] at hpre
        rw [hnil, List.nil_append] at hrest
        exact ⟨[], by rw [hpre, List.append_nil], hrest.symm⟩
      · exact ⟨more, hpart, hrest⟩
    have hlt : more.length < payload.length := by
      rw [hpayload, List.length_append]
      have := List.length_pos_of_ne_nil hmissing
      omega
    rw [read_declared hsize, if_neg (by omega), if_neg (by omega), if_pos hlt]
    rfl

end Framing

end CipherFS
