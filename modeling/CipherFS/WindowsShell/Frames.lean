import CipherFS.Framework.ByteReader
import CipherFS.WindowsShell.Protocol

/-!
# Frames over any reader

`write_frame` and `read_frame` for any message type, over a reader that may split
its stream as it likes. The first byte of a length is read on its own, which tells
the end of the stream from a frame that is cut off.
-/

namespace CipherFS.WindowsShell

/-- `rmp_serde` on the messages of one type. -/
structure MessageCodec (Message : Type) where
  encode : Message → Result Bytes
  decode : Bytes → Result Message
  decode_encode : ∀ {message payload}, encode message = .ok payload → decode payload = .ok message

namespace MessageCodec

variable {Message : Type} (K : MessageCodec Message)

/-! ## Writing and reading -/

/-- `write_frame` to a writer that takes every byte. -/
def writeFrame (written : Bytes) (message : Message) : Result Bytes := do
  let payload ← K.encode message
  Result.rejectIf (¬payload.length ≤ maxFrameSize) "Worker protocol frame exceeds the size limit"
  return written ++ leBytes 4 payload.length ++ payload

/-- `write_frame` for each message in turn. -/
def writeFrames (messages : List Message) : Result Bytes := messages.foldlM K.writeFrame []

/-- `read_frame` behind the first byte of the length. -/
def readBody (first : UInt8) (r : ByteReader) : Result (Option Message) × ByteReader :=
  match r.readExact 3 with
  | (.error e, r) => ((Result.ioError e.text).context "Truncated worker frame length", r)
  | (.ok bytes, r) =>
    let length := ofLe (first :: bytes)
    if ¬length ≤ maxFrameSize then (Result.bail "Worker protocol frame is too large", r)
    else if ¬length > 0 then (Result.bail "Worker protocol frame is empty", r)
    else
      match r.readExact length with
      | (.error e, r) =>
          ((Result.ioError e.text).context "Truncated worker protocol frame", r)
      | (.ok payload, r) =>
          (((K.decode payload).context "Malformed worker protocol frame").map some, r)

/-- The retries of `read_frame`: an interruption uses up one of the turns. -/
def readFrameLoop : Nat → ByteReader → Result (Option Message) × ByteReader
  | 0, r => (.ok none, r)
  | fuel + 1, r =>
    match r.read 1 with
    | (.ok [], r) => (.ok none, r)
    | (.ok (first :: _), r) => K.readBody first r
    | (.error .interrupted, r) => readFrameLoop fuel r
    | (.error e, r) => ((Result.ioError e.text).context "Unable to read worker frame length", r)

/-- `read_frame`. -/
def readFrame (r : ByteReader) : Result (Option Message) × ByteReader :=
  K.readFrameLoop (r.turns.length + 1) r

/-- Some calls of `read_frame`, up to the end of the stream or an error: the
messages, and how it ended if it did. -/
def readFrames : Nat → ByteReader → List Message × Option (Result Unit)
  | 0, _ => ([], none)
  | calls + 1, r =>
    match K.readFrame r with
    | (.ok none, _) => ([], some (.ok ()))
    | (.error e, _) => ([], some (.error e))
    | (.ok (some message), r) =>
        let (messages, ending) := readFrames calls r
        (message :: messages, ending)

/-! ## One frame -/

/-- What `read_frame` returns for what is in the stream. -/
def returned : Framing.Incoming → Result (Option Message)
  | .blocked => .ok none
  | .closed => .ok none
  | .truncatedLength =>
      (Result.ioError ReadError.unexpectedEof.text).context "Truncated worker frame length"
  | .tooLarge => Result.bail "Worker protocol frame is too large"
  | .empty => Result.bail "Worker protocol frame is empty"
  | .truncated =>
      (Result.ioError ReadError.unexpectedEof.text).context "Truncated worker protocol frame"
  | .payload payload _ => ((K.decode payload).context "Malformed worker protocol frame").map some

variable {K} {r : ByteReader}

theorem readBody_eq {first : UInt8} (h : r.Steady) : ∃ turns, turns <:+ r.turns ∧
    K.readBody first r = (K.returned (Framing.read maxFrameSize true (first :: r.rest)),
      ⟨Framing.left maxFrameSize (first :: r.rest), turns⟩) := by
  have hcons : ∀ bytes : Bytes, (first :: bytes).length = bytes.length + 1 :=
    fun _ => List.length_cons
  unfold readBody Framing.left Framing.read
  by_cases hthree : 3 ≤ r.rest.length
  · obtain ⟨turns, hturns, hread⟩ := ByteReader.readExact_of_le h hthree
    rw [hread, if_neg (List.cons_ne_nil _ _), if_neg (by rw [hcons]; omega)]
    dsimp only
    have htake : (first :: r.rest).take 4 = first :: r.rest.take 3 := rfl
    have hdrop : (first :: r.rest).drop 4 = r.rest.drop 3 := rfl
    rw [htake, hdrop]
    generalize ofLe (first :: r.rest.take 3) = length
    by_cases hlarge : maxFrameSize < length
    · rw [if_pos (Nat.not_le_of_lt hlarge), if_pos hlarge]
      exact ⟨turns, hturns, rfl⟩
    rw [if_neg (not_not.mpr (Nat.le_of_not_lt hlarge)), if_neg hlarge]
    by_cases hempty : length = 0
    · rw [if_pos (by omega), if_pos hempty]
      exact ⟨turns, hturns, rfl⟩
    rw [if_neg (by omega), if_neg hempty, hcons]
    have hsteady : ByteReader.Steady ⟨r.rest.drop 3, turns⟩ := h.of_suffix hturns
    by_cases hshort : (r.rest.drop 3).length < length
    · obtain ⟨turns', hturns', hread'⟩ := ByteReader.readExact_of_lt hsteady hshort
      rw [List.length_drop] at hshort
      rw [hread', if_pos (by omega)]
      exact ⟨turns', hturns'.trans hturns, rfl⟩
    · obtain ⟨turns', hturns', hread'⟩ := ByteReader.readExact_of_le hsteady (Nat.le_of_not_lt hshort)
      rw [List.length_drop] at hshort
      rw [hread', if_neg (by omega)]
      refine ⟨turns', hturns'.trans hturns, ?_⟩
      show (_, ByteReader.mk ((r.rest.drop 3).drop length) turns') =
        (_, ByteReader.mk ((first :: r.rest).drop (4 + length)) turns')
      rw [← List.drop_drop, hdrop]
      rfl
  · obtain ⟨turns, hturns, hread⟩ := ByteReader.readExact_of_lt h (Nat.lt_of_not_le hthree)
    rw [hread, if_neg (List.cons_ne_nil _ _), if_pos (by rw [hcons]; omega)]
    exact ⟨turns, hturns, rfl⟩

theorem readFrameLoop_eq {fuel : Nat} (h : r.Steady) (hfuel : r.turns.length < fuel) :
    ∃ turns, turns <:+ r.turns ∧
      K.readFrameLoop fuel r = (K.returned (Framing.read maxFrameSize true r.rest),
        ⟨Framing.left maxFrameSize r.rest, turns⟩) := by
  induction fuel generalizing r with
  | zero => exact absurd hfuel (Nat.not_lt_zero _)
  | succ fuel ih =>
      unfold readFrameLoop
      rcases ByteReader.read_cases h Nat.one_pos with
        ⟨turns, hturns, hread⟩ | ⟨k, turns, hk, hlen, hend, hturns, hread⟩
      · rw [hread]
        have hsuffix : turns <:+ r.turns := hturns ▸ List.suffix_cons _ _
        have hshort : turns.length < fuel := by
          rw [hturns, List.length_cons] at hfuel
          omega
        obtain ⟨turns', hturns', hloop⟩ := ih (h.of_suffix hsuffix) hshort
        exact ⟨turns', hturns'.trans hsuffix, hloop⟩
      · rw [hread]
        cases hrest : r.rest with
        | nil => exact ⟨turns, hturns, by rw [List.take_nil, List.drop_nil]; rfl⟩
        | cons first rest =>
            have hone : k = 1 := by
              rcases Nat.eq_zero_or_pos k with hzero | hpos
              · rw [hend hzero] at hrest
                cases hrest
              · omega
            rw [hone]
            have hsteady : ByteReader.Steady ⟨rest, turns⟩ := h.of_suffix hturns
            obtain ⟨turns', hturns', hbody⟩ := readBody_eq (K := K) hsteady
            exact ⟨turns', hturns'.trans hturns, hbody⟩

/-- **However the reader splits its stream, `read_frame` comes to what is in it.** -/
theorem readFrame_eq (h : r.Steady) : ∃ turns, turns <:+ r.turns ∧
    K.readFrame r = (K.returned (Framing.read maxFrameSize true r.rest),
      ⟨Framing.left maxFrameSize r.rest, turns⟩) :=
  readFrameLoop_eq h (Nat.lt_succ_self _)

/-! ## A stream of messages -/

variable (K) in
/-- A message whose encoding goes into a frame. -/
structure Fits (message : Message) (payload : Bytes) : Prop where
  encode : K.encode message = .ok payload
  pos : 0 < payload.length
  le : payload.length ≤ maxFrameSize

namespace Fits

variable {message : Message} {payload rest : Bytes}

theorem size (h : K.Fits message payload) : payload.length < 256 ^ 4 :=
  Nat.lt_of_le_of_lt h.le (by decide)

theorem decode (h : K.Fits message payload) : K.decode payload = .ok message :=
  K.decode_encode h.encode

theorem writeFrame (h : K.Fits message payload) (written : Bytes) :
    K.writeFrame written message = .ok (written ++ Framing.frame payload) := by
  rw [MessageCodec.writeFrame, h.encode, Result.ok_bind, Result.rejectIf,
    if_neg (not_not.mpr h.le), Result.ok_bind, Framing.frame, List.append_assoc]
  rfl

/-- The frame at the front of the stream is read, and the reader is behind it. -/
theorem readFrame (h : K.Fits message payload) (hr : r.Steady)
    (hrest : r.rest = Framing.frame payload ++ rest) : ∃ turns, turns <:+ r.turns ∧
      K.readFrame r = (.ok (some message), ⟨rest, turns⟩) := by
  obtain ⟨turns, hturns, hread⟩ := readFrame_eq (K := K) hr
  refine ⟨turns, hturns, ?_⟩
  rw [hread, Framing.left, hrest, Framing.read_frame_append h.pos h.le h.size, returned, h.decode]
  rfl

end Fits

variable {messages : List Message}

variable (K) in
/-- The frame of a message. -/
def frameOf (message : Message) : Bytes :=
  match K.encode message with
  | .ok payload => Framing.frame payload
  | .error _ => []

theorem frameOf_eq {message : Message} {payload : Bytes} (h : K.Fits message payload) :
    K.frameOf message = Framing.frame payload := by
  rw [frameOf, h.encode]

theorem writeFrames_eq (h : ∀ m ∈ messages, ∃ payload, K.Fits m payload) :
    K.writeFrames messages = .ok (messages.flatMap K.frameOf) := by
  have hfold : ∀ written, messages.foldlM K.writeFrame written =
      .ok (written ++ messages.flatMap K.frameOf) := by
    induction messages with
    | nil =>
        intro written
        rw [List.flatMap_nil, List.append_nil]
        rfl
    | cons m rest ih =>
        intro written
        rw [List.forall_mem_cons] at h
        obtain ⟨⟨payload, hm⟩, hrest⟩ := h
        rw [List.foldlM_cons, hm.writeFrame, Result.ok_bind, ih hrest, List.flatMap_cons,
          frameOf_eq hm, List.append_assoc]
  exact hfold []

/-- The messages at the front of a stream are read one after the other. -/
theorem readFrames_append {tail : Bytes} (h : ∀ m ∈ messages, ∃ payload, K.Fits m payload)
    (hr : r.Steady) (hrest : r.rest = messages.flatMap K.frameOf ++ tail) :
    ∃ turns, ByteReader.Steady ⟨tail, turns⟩ ∧ ∀ calls,
      K.readFrames (messages.length + calls) r =
        (messages ++ (K.readFrames calls ⟨tail, turns⟩).1, (K.readFrames calls ⟨tail, turns⟩).2) := by
  induction messages generalizing r with
  | nil =>
      refine ⟨r.turns, hr, fun calls => ?_⟩
      have hsame : r = ⟨tail, r.turns⟩ := by
        rw [List.flatMap_nil, List.nil_append] at hrest
        rw [← hrest]
      rw [List.length_nil, Nat.zero_add, List.nil_append, ← hsame]
  | cons m messages ih =>
      rw [List.forall_mem_cons] at h
      obtain ⟨⟨payload, hm⟩, hmessages⟩ := h
      rw [List.flatMap_cons, frameOf_eq hm, List.append_assoc] at hrest
      obtain ⟨turns, hturns, hread⟩ := hm.readFrame hr hrest
      obtain ⟨turns', hsteady, hrun⟩ := ih hmessages (hr.of_suffix hturns) rfl
      refine ⟨turns', hsteady, fun calls => ?_⟩
      rw [List.length_cons, Nat.add_right_comm, readFrames, hread]
      show (let (messages, ending) := K.readFrames (messages.length + calls) _
        (m :: messages, ending)) = _
      rw [hrun calls]
      rfl

/-- What comes behind the messages. -/
theorem readFrames_end {ending : Result Unit} {tail : Bytes}
    (h : ∀ m ∈ messages, ∃ payload, K.Fits m payload) (hr : r.Steady)
    (hrest : r.rest = messages.flatMap K.frameOf ++ tail)
    (hend : K.returned (Framing.read maxFrameSize true tail) = ending.map fun _ => none)
    {calls : Nat} (hcalls : messages.length < calls) :
    K.readFrames calls r = (messages, some ending) := by
  obtain ⟨turns, hsteady, hrun⟩ := readFrames_append h hr hrest
  obtain ⟨more, rfl⟩ : ∃ more, calls = messages.length + (more + 1) :=
    ⟨calls - messages.length - 1, by omega⟩
  obtain ⟨turns', -, hread⟩ := readFrame_eq (K := K) hsteady
  rw [hrun, readFrames, hread]
  dsimp only
  rw [hend]
  cases ending with
  | ok u => simp [Except.map]
  | error e => simp [Except.map]

/-- A stream that ends inside a frame is an error. -/
theorem returned_cut {message : Message} {payload front behind : Bytes}
    (h : K.Fits message payload) (hframe : front ++ behind = Framing.frame payload)
    (hfront : front ≠ []) (hbehind : behind ≠ []) :
    ∃ e, K.returned (Framing.read maxFrameSize true front) = .error e := by
  rcases Framing.read_cut hframe hfront hbehind h.le h.pos h.size with hread | hread
  · exact ⟨_, by rw [hread]; rfl⟩
  · exact ⟨_, by rw [hread]; rfl⟩

/-- A length that no frame has is refused at the length. -/
theorem readFrame_declared {declared : Nat} {payload : Bytes} {turns : List Turn}
    (hr : ByteReader.Steady ⟨leBytes 4 declared ++ payload, turns⟩) (hsize : declared < 256 ^ 4)
    (hdeclared : declared = 0 ∨ maxFrameSize < declared) : ∃ e turns',
      K.readFrame ⟨leBytes 4 declared ++ payload, turns⟩ = (.error e, ⟨payload, turns'⟩) := by
  obtain ⟨turns', -, hread⟩ := readFrame_eq (K := K) hr
  obtain ⟨e, hreturned, hleft⟩ : ∃ e,
      K.returned (Framing.read maxFrameSize true (leBytes 4 declared ++ payload)) = .error e ∧
      Framing.left maxFrameSize (leBytes 4 declared ++ payload) = payload := by
    rw [Framing.left, Framing.read_declared hsize, Framing.drop_declared]
    rcases hdeclared with rfl | hlarge
    · rw [if_neg (Nat.not_lt_zero _), if_pos rfl]
      exact ⟨_, rfl, rfl⟩
    · rw [if_pos hlarge]
      exact ⟨_, rfl, rfl⟩
  rw [hreturned, hleft] at hread
  exact ⟨e, turns', hread⟩

variable (K) in
/-- **The framing of the worker.** Whatever fits into frames is read back, in its
order, by a reader that splits the stream in any way, and then its end; of a stream
that is cut, the messages before the cut are, and then the end or, inside a frame,
an error; and a length of zero or above the limit is refused with the reader right
behind the length. -/
theorem worker_framing :
    (∀ messages : List Message, (∀ m ∈ messages, ∃ payload, K.Fits m payload) →
      ∃ stream, K.writeFrames messages = .ok stream ∧
        (∀ turns, ByteReader.Steady ⟨stream, turns⟩ → ∀ calls > messages.length,
          K.readFrames calls ⟨stream, turns⟩ = (messages, some (.ok ()))) ∧
        ∀ cut missing, cut ++ missing = stream → ∃ before after whole,
          messages = before ++ after ∧ K.writeFrames before = .ok whole ∧
          (cut = whole ∧ (∀ turns, ByteReader.Steady ⟨cut, turns⟩ → ∀ calls > before.length,
              K.readFrames calls ⟨cut, turns⟩ = (before, some (.ok ()))) ∨
            ∃ m more front behind, after = m :: more ∧ cut = whole ++ front ∧
              K.writeFrame whole m = .ok (cut ++ behind) ∧ front ≠ [] ∧ behind ≠ [] ∧
              ∀ turns, ByteReader.Steady ⟨cut, turns⟩ → ∀ calls > before.length, ∃ e,
                K.readFrames calls ⟨cut, turns⟩ = (before, some (.error e)))) ∧
    ∀ declared payload turns, declared < 2 ^ 32 → declared = 0 ∨ maxFrameSize < declared →
      ByteReader.Steady ⟨leBytes 4 declared ++ payload, turns⟩ → ∃ e turns',
        K.readFrame ⟨leBytes 4 declared ++ payload, turns⟩ = (.error e, ⟨payload, turns'⟩) := by
  refine ⟨fun messages h => ⟨_, writeFrames_eq h, ?_, ?_⟩, ?_⟩
  · intro turns hr calls hcalls
    refine readFrames_end h hr (List.append_nil _).symm ?_ hcalls
    rfl
  · intro cut missing hcut
    obtain ⟨before, after, rfl, hwhere⟩ := Framing.exists_cut hcut
    have hbefore : ∀ m ∈ before, ∃ payload, K.Fits m payload := fun m hm =>
      h m (List.mem_append_left _ hm)
    refine ⟨before, after, _, rfl, writeFrames_eq hbefore, ?_⟩
    rcases hwhere with rfl | ⟨m, more, front, behind, rfl, rfl, hframe, hfront, hbehind⟩
    · refine .inl ⟨rfl, fun turns hr calls hcalls => ?_⟩
      refine readFrames_end hbefore hr (List.append_nil _).symm ?_ hcalls
      rfl
    · obtain ⟨payload, hm⟩ := h m (List.mem_append_right _ List.mem_cons_self)
      rw [frameOf_eq hm] at hframe
      obtain ⟨e, hcutoff⟩ := returned_cut hm hframe hfront hbehind
      refine .inr ⟨m, more, front, behind, rfl, rfl, ?_, hfront, hbehind, ?_⟩
      · rw [hm.writeFrame, List.append_assoc, hframe]
      · intro turns hr calls hcalls
        refine ⟨e, readFrames_end hbefore hr rfl ?_ hcalls⟩
        exact hcutoff
  · intro declared payload turns hsize hdeclared hr
    exact readFrame_declared hr (by simpa using hsize) hdeclared

end MessageCodec

namespace FrameCodec

variable (K : FrameCodec)

/-- The codec of the worker's events, with the errors of the code. -/
def messages : MessageCodec WorkerEvent where
  encode event := Result.ofOption (K.encode event) "path contains invalid UTF-8 characters"
  decode payload :=
    match K.decode payload with
    | .ok event => .ok event
    | .error text => Result.bail text
  decode_encode h := by
    rw [K.decode_encode (Result.ofOption_eq_ok.mp h)]

/-- The reading of the pipe as a whole is `read_frame` over any reader of it. -/
theorem readFrame_event_iff {r : ByteReader} (h : r.Steady) {event : WorkerEvent} {rest : Bytes} :
    K.readFrame true r.rest = some (.event event, rest) ↔
      ∃ turns, K.messages.readFrame r = (.ok (some event), ⟨rest, turns⟩) := by
  obtain ⟨turns, -, hread⟩ := MessageCodec.readFrame_eq (K := K.messages) h
  rw [hread, FrameCodec.readFrame, Framing.left]
  cases Framing.read maxFrameSize true r.rest with
  | payload payload behind =>
      show (match K.decode payload with
        | .ok event => some (Frame.event event, behind)
        | .error text => some (.invalid _, behind)) = _ ↔ ∃ turns',
          ((((match K.decode payload with
            | .ok event => Except.ok event
            | .error text => Result.bail text : Result WorkerEvent).context _).map some), _) = _
      cases K.decode payload with
      | ok event' => simp [Result.context, Except.map]
      | error text => simp [Result.context, Result.bail, Except.map]
  | _ => simp [MessageCodec.returned, Result.context, Result.bail, Result.ioError]

end FrameCodec

/-- `ParentCommand`. -/
inductive ParentCommand where
  | cancel
  | unmount
deriving DecidableEq, Repr

/-- A command as `rmp_serde` writes it: the name of the variant. -/
def ParentCommand.codec : MessageCodec ParentCommand where
  encode
    | .cancel => .ok (0xA6 :: Text.utf8 "Cancel")
    | .unmount => .ok (0xA7 :: Text.utf8 "Unmount")
  decode payload :=
    if payload = 0xA6 :: Text.utf8 "Cancel" then .ok .cancel
    else if payload = 0xA7 :: Text.utf8 "Unmount" then .ok .unmount
    else Result.bail "unknown variant"
  decode_encode := by
    rintro (_ | _) payload h
    all_goals
      cases h
      decide

/-- Two commands in three pieces, with an interruption before the second. -/
theorem worker_framing_sample : ∃ stream,
    ParentCommand.codec.writeFrames [.cancel, .unmount] = .ok stream ∧
      ParentCommand.codec.readFrames 3
        ⟨stream, [.upTo 0, .upTo 1, .upTo 9, .upTo 2, .interrupted, .upTo 4]⟩ =
          ([.cancel, .unmount], some (.ok ())) := by
  obtain ⟨stream, hwrite, hread, -⟩ := ParentCommand.codec.worker_framing.1 [.cancel, .unmount]
    (by
      rw [List.forall_mem_cons, List.forall_mem_singleton]
      exact ⟨⟨_, rfl, by decide, by decide⟩, ⟨_, rfl, by decide, by decide⟩⟩)
  exact ⟨stream, hwrite, hread _ (by intro text; simp) 3 (by decide)⟩

end CipherFS.WindowsShell
