import CipherFS.Core.V2.AcceptedHeader
import CipherFS.Framework.Tear

/-!
# The encoded header

`rmp_serde::to_vec` on the header: structs and fixed arrays are MessagePack
arrays, integers take their shortest form. The stored image is the encoding,
padded with zeros to `HEADER_SIZE`; the decoder does not look at the padding.
-/

namespace CipherFS.V2

open MsgPack Result

/-! ## Encoding -/

def Argon2Params.tokens (p : Argon2Params) : List Bytes :=
  [encodeArrayLen 3, encodeUint p.mCost.toNat, encodeUint p.tCost.toNat, encodeUint p.pCost.toNat]

def KeySlot.tokens (s : KeySlot (ByteArr 48)) : List Bytes :=
  [encodeArrayLen 5] ++ ([encodeUint s.generation.toNat] ++ (byteTokens s.salt.val ++
    (s.params.tokens ++ (byteTokens s.nonce.val ++ byteTokens s.encryptedDek.val))))

def DuressSlot.tokens (s : DuressSlot (ByteArr 48)) : List Bytes :=
  [encodeArrayLen 5] ++ ([encodeBool s.enabled] ++ (byteTokens s.salt.val ++
    (s.params.tokens ++ (byteTokens s.nonce.val ++ byteTokens s.encryptedMarker.val))))

namespace Header

variable (h : Header (ByteArr 48))

/-- The fields before the keyslots, and the length of the keyslot array. -/
def layoutTokens : List Bytes :=
  [encodeArrayLen 11] ++ (byteTokens h.magic.val ++ ([encodeUint h.version.toNat] ++
    ([encodeUint h.headerSize.toNat] ++ (byteTokens h.containerId.val ++
    ([encodeUint h.chunkSize.toNat] ++ ([encodeUint h.indexSize.toNat] ++
    ([encodeUint h.dataSize.toNat] ++ ([encodeUint h.entryCount.toNat] ++
    (byteTokens h.indexNonce.val ++ [encodeArrayLen 2])))))))))

/-- What stands before a keyslot. -/
def tokensBefore : SlotIndex → List Bytes
  | .first => h.layoutTokens
  | .second => h.layoutTokens ++ h.slot0.tokens

/-- What stands behind a keyslot. -/
def tokensAfter : SlotIndex → List Bytes
  | .first => h.slot1.tokens ++ h.duress.tokens
  | .second => h.duress.tokens

def tokens : List Bytes :=
  h.layoutTokens ++ (h.slot0.tokens ++ (h.slot1.tokens ++ h.duress.tokens))

/-- `rmp_serde::to_vec` on a header. -/
def encode : Bytes := h.tokens.flatten

end Header

/-- `serialize_header`. -/
def serializeHeader (header : Header (ByteArr 48)) : Result Bytes := do
  let bytes := header.encode
  rejectIf (bytes.length > headerSize) "v2 header exceeds fixed header size"
  .ok (bytes ++ List.replicate (headerSize - bytes.length) 0)

/-! ## Decoding -/

open Decoder

def Argon2Params.decode : Decoder Argon2Params := do
  array 3
  let mCost ← u32
  let tCost ← u32
  let pCost ← u32
  return ⟨mCost, tCost, pCost⟩

def KeySlot.decode : Decoder (KeySlot (ByteArr 48)) := do
  array 5
  let generation ← u64
  let salt ← byteArr 16
  let params ← Argon2Params.decode
  let nonce ← byteArr 12
  let encryptedDek ← byteArr 48
  return ⟨generation, salt, params, nonce, encryptedDek⟩

def DuressSlot.decode : Decoder (DuressSlot (ByteArr 48)) := do
  array 5
  let enabled ← Decoder.bool
  let salt ← byteArr 16
  let params ← Argon2Params.decode
  let nonce ← byteArr 12
  let encryptedMarker ← byteArr 48
  return ⟨enabled, salt, params, nonce, encryptedMarker⟩

/-- The keyslots and the duress slot, behind the other fields. -/
def Header.decodeSlots (h : KeySlot (ByteArr 48) → KeySlot (ByteArr 48) →
    DuressSlot (ByteArr 48) → Header (ByteArr 48)) : Decoder (Header (ByteArr 48)) := do
  let slot0 ← KeySlot.decode
  let slot1 ← KeySlot.decode
  let duress ← DuressSlot.decode
  return h slot0 slot1 duress

/-- A header in the encoding in which it is written. The source would also take a
map of the fields, which it never writes. -/
def Header.decode : Decoder (Header (ByteArr 48)) := do
  array 11
  let magic ← byteArr 4
  let version ← u16
  let headerSize ← u32
  let containerId ← byteArr 16
  let chunkSize ← u32
  let indexSize ← u64
  let dataSize ← u64
  let entryCount ← u64
  let indexNonce ← byteArr 12
  array 2
  Header.decodeSlots fun slot0 slot1 duress => ⟨magic, version, headerSize, containerId,
    chunkSize, indexSize, dataSize, entryCount, indexNonce, slot0, slot1, duress⟩

/-- `read_header` on the bytes of a file. -/
def readHeader (file : Bytes) : Result (Header (ByteArr 48)) := do
  (if file.length < headerSize then Result.ioError "failed to fill whole buffer"
    else .ok ()).context "Unable to read v2 header"
  let header ← (ofOption (Header.decode (file.take headerSize)) "invalid encoding").context
    "Invalid v2 header encoding"
  validateHeaderBasic header.1 (some (UInt64.ofNat file.length))
  .ok header.1

/-! ## Round trip -/

theorem reads_params (p : Argon2Params) : Reads Argon2Params.decode p.tokens.flatten p :=
  Reads.bind (reads_array (by decide)) (Reads.bind (reads_u32 _) (Reads.bind (reads_u32 _)
    (Reads.bind (reads_u32 _) (Reads.pure _))))

theorem reads_keySlot (s : KeySlot (ByteArr 48)) : Reads KeySlot.decode s.tokens.flatten s := by
  simp only [KeySlot.tokens, List.flatten_append, List.flatten_singleton]
  refine Reads.bind (reads_array (by decide)) (Reads.bind (reads_u64 _) ?_)
  refine Reads.bind (reads_byteArr (by decide) _) (Reads.bind (reads_params _) ?_)
  refine Reads.bind (reads_byteArr (by decide) _) ?_
  exact Reads.bind_nil (reads_byteArr (by decide) _) (Reads.pure _)

theorem reads_duressSlot (s : DuressSlot (ByteArr 48)) :
    Reads DuressSlot.decode s.tokens.flatten s := by
  simp only [DuressSlot.tokens, List.flatten_append, List.flatten_singleton]
  refine Reads.bind (reads_array (by decide)) (Reads.bind (reads_bool _) ?_)
  refine Reads.bind (reads_byteArr (by decide) _) (Reads.bind (reads_params _) ?_)
  refine Reads.bind (reads_byteArr (by decide) _) ?_
  exact Reads.bind_nil (reads_byteArr (by decide) _) (Reads.pure _)

/-- The header is read from anything its slots are read from. -/
theorem reads_header_slots (h : Header (ByteArr 48)) {b₀ b₁ b₂ : Bytes}
    {s₀ s₁ : KeySlot (ByteArr 48)} {d : DuressSlot (ByteArr 48)} (h₀ : Reads KeySlot.decode b₀ s₀)
    (h₁ : Reads KeySlot.decode b₁ s₁) (h₂ : Reads DuressSlot.decode b₂ d) :
    Reads Header.decode (h.layoutTokens.flatten ++ (b₀ ++ (b₁ ++ b₂)))
      { h with slot0 := s₀, slot1 := s₁, duress := d } := by
  simp only [Header.layoutTokens, List.flatten_append, List.flatten_singleton, List.append_assoc]
  refine Reads.bind (reads_array (by decide)) (Reads.bind (reads_byteArr (by decide) _) ?_)
  refine Reads.bind (reads_u16 _) (Reads.bind (reads_u32 _) ?_)
  refine Reads.bind (reads_byteArr (by decide) _) (Reads.bind (reads_u32 _) ?_)
  refine Reads.bind (reads_u64 _) (Reads.bind (reads_u64 _) (Reads.bind (reads_u64 _) ?_))
  refine Reads.bind (reads_byteArr (by decide) _) (Reads.bind (reads_array (by decide)) ?_)
  exact Reads.bind h₀ (Reads.bind h₁ (Reads.bind_nil h₂ (Reads.pure _)))

theorem reads_header (h : Header (ByteArr 48)) : Reads Header.decode h.encode h := by
  rw [Header.encode, Header.tokens, List.flatten_append, List.flatten_append,
    List.flatten_append]
  exact reads_header_slots h (reads_keySlot _) (reads_keySlot _) (reads_duressSlot _)

/-- The header is read from anything one of its keyslots is read from. -/
theorem reads_header_slot (h : Header (ByteArr 48)) (i : SlotIndex) {b : Bytes}
    {s : KeySlot (ByteArr 48)} (hs : Reads KeySlot.decode b s) :
    Reads Header.decode ((h.tokensBefore i).flatten ++ (b ++ (h.tokensAfter i).flatten))
      (h.setSlot i s) := by
  cases i with
  | first =>
      rw [Header.tokensBefore, Header.tokensAfter, List.flatten_append]
      exact reads_header_slots h hs (reads_keySlot _) (reads_duressSlot _)
  | second =>
      rw [Header.tokensBefore, Header.tokensAfter, List.flatten_append, List.append_assoc]
      exact reads_header_slots h (reads_keySlot _) hs (reads_duressSlot _)

/-! ## Size -/

/-- No token has more than nine bytes. -/
def Short (ts : List Bytes) : Prop := ∀ t ∈ ts, t.length ≤ 9

theorem short_cons {t : Bytes} {ts : List Bytes} :
    Short (t :: ts) ↔ t.length ≤ 9 ∧ Short ts := List.forall_mem_cons

theorem short_append {ts us : List Bytes} : Short (ts ++ us) ↔ Short ts ∧ Short us :=
  List.forall_mem_append

theorem length_encodeUint_le (n : Nat) : (encodeUint n).length ≤ 9 := by
  unfold encodeUint
  repeat' split
  all_goals simp

theorem length_encodeArrayLen_le (n : Nat) : (encodeArrayLen n).length ≤ 9 := by
  unfold encodeArrayLen
  repeat' split
  all_goals simp

theorem short_byteTokens (b : Bytes) : Short (byteTokens b) := by
  intro t ht
  rcases List.mem_cons.mp ht with rfl | ht
  · exact length_encodeArrayLen_le _
  · obtain ⟨x, -, rfl⟩ := List.mem_map.mp ht
    exact length_encodeUint_le _

theorem Short.length_flatten_le {ts : List Bytes} (h : Short ts) :
    ts.flatten.length ≤ 9 * ts.length := by
  induction ts with
  | nil => exact Nat.le_refl 0
  | cons t rest ih =>
      obtain ⟨ht, hrest⟩ := short_cons.mp h
      have hle := ih hrest
      rw [List.flatten_cons, List.length_append, List.length_cons]
      omega

@[simp] theorem length_byteTokens {n : Nat} (b : ByteArr n) :
    (byteTokens b.val).length = n + 1 := by
  rw [byteTokens, List.length_cons, List.length_map, b.length_val]

theorem length_slotTokens (s : KeySlot (ByteArr 48)) : s.tokens.length = 85 := by
  simp [KeySlot.tokens, Argon2Params.tokens]

theorem length_encode_le (h : Header (ByteArr 48)) : h.encode.length ≤ headerSize := by
  have hcount : h.tokens.length = 298 := by
    simp [Header.tokens, Header.layoutTokens, KeySlot.tokens, DuressSlot.tokens,
      Argon2Params.tokens]
  have hshort : Short h.tokens := by
    simp [Header.tokens, Header.layoutTokens, KeySlot.tokens, DuressSlot.tokens,
      Argon2Params.tokens, encodeBool, short_append, short_cons, short_byteTokens,
      length_encodeUint_le, length_encodeArrayLen_le]
  have hle := hshort.length_flatten_le
  rw [hcount] at hle
  exact Nat.le_trans hle (by decide)

/-! ## The stored image -/

/-- The image of a header. -/
def Header.image (h : Header (ByteArr 48)) : Bytes :=
  h.encode ++ List.replicate (V2.headerSize - h.encode.length) 0

/-- Every header can be stored. -/
theorem serializeHeader_eq (h : Header (ByteArr 48)) : serializeHeader h = .ok h.image := by
  have hle := length_encode_le h
  rw [serializeHeader, Result.rejectIf, if_neg (Nat.not_lt.mpr hle), ok_bind, Header.image]

@[simp] theorem length_image (h : Header (ByteArr 48)) : h.image.length = headerSize := by
  have hle := length_encode_le h
  rw [Header.image, List.length_append, List.length_replicate]
  omega

/-- A file is read up to the end of its encoded header. -/
theorem readHeader_eq_ok {file b : Bytes} {h : Header (ByteArr 48)}
    (hlen : headerSize ≤ file.length) (hfile : b <+: file.take headerSize)
    (hread : Reads Header.decode b h)
    (hvalid : validateHeaderBasic h (some (UInt64.ofNat file.length)) = .ok ()) :
    readHeader file = .ok h := by
  obtain ⟨rest, hrest⟩ := hfile
  have hdecode : Header.decode (file.take headerSize) = some (h, rest) := by
    rw [← hrest]
    exact hread rest
  rw [readHeader, if_neg (Nat.not_lt.mpr hlen), hdecode]
  simp only [Result.context, ofOption, ok_bind, hvalid]

/-- **What `write_header` stores is what `read_header` reads.** -/
theorem readHeader_image {h : Header (ByteArr 48)} {body : Bytes}
    (hvalid : validateHeaderBasic h (some (UInt64.ofNat (h.image ++ body).length)) = .ok ()) :
    readHeader (h.image ++ body) = .ok h := by
  refine readHeader_eq_ok ?_ ?_ (reads_header h) hvalid
  · rw [List.length_append, length_image]
    exact Nat.le_add_right _ _
  · rw [← length_image h, List.take_left, Header.image]
    exact List.prefix_append _ _

/-! ## Torn keyslots -/

theorem readsTorn_params (p q : Argon2Params) :
    ReadsTorn Argon2Params.decode p.tokens q.tokens := by
  have hint (m n : UInt32) : ReadsTorn u32 [encodeUint m.toNat] [encodeUint n.toNat] :=
    (ReadsTorn.uint (by decide) m.toNat_lt n.toNat_lt).map _
  exact (ReadsTorn.same (reads_array (by decide))).bind fun _ => (hint _ _).bind fun _ =>
    (hint _ _).bind fun _ => (hint _ _).bind_nil fun _ => .pure _

/-- From any mixture of two keyslots a keyslot is read. -/
theorem readsTorn_keySlot (s t : KeySlot (ByteArr 48)) :
    ReadsTorn KeySlot.decode s.tokens t.tokens := by
  have hgen : ReadsTorn u64 [encodeUint s.generation.toNat] [encodeUint t.generation.toNat] :=
    (ReadsTorn.uint (by decide) s.generation.toNat_lt t.generation.toNat_lt).map _
  refine (ReadsTorn.same (reads_array (by decide))).bind fun _ => hgen.bind fun _ => ?_
  refine (ReadsTorn.byteArr (by decide) _ _).bind fun _ => (readsTorn_params _ _).bind fun _ => ?_
  refine (ReadsTorn.byteArr (by decide) _ _).bind fun _ => ?_
  exact (ReadsTorn.byteArr (by decide) _ _).bind_nil fun _ => .pure _

end CipherFS.V2
