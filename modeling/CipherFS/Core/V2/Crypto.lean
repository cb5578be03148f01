import CipherFS.Framework.Result
import CipherFS.Core.V2.Format

/-!
# Primitives and associated data

The cryptographic crates enter as a parameter, `Crypto`; no property of them is
built in. `Key` is the type of 256-bit AEAD keys and `W` that of the 48-byte
wrapped keys. What the code itself decides is the associated data, the nonces
and the key derivation inputs, and those are spelled out byte by byte.
-/

namespace CipherFS.V2

open Result

/-- The primitives `v2.rs` calls. `none` is the crate's error.

`wrap`/`unwrap` are `encrypt_aead`/`decrypt_aead` on the fixed-size DEK and
marker, `encrypt`/`decrypt` are the same functions on the index and the chunks;
`markerDigest` is `blake3::hash` of a wrapped marker. -/
structure Crypto (Key W : Type) where
  argon2id : String → ByteArr 16 → Argon2Params → Option Key
  wrap : Key → ByteArr 12 → Bytes → Bytes → Option W
  unwrap : Key → ByteArr 12 → Bytes → W → Option Bytes
  hkdf : ByteArr 32 → ByteArr 16 → Bytes → Option Key
  encrypt : Key → ByteArr 12 → Bytes → Bytes → Option Bytes
  decrypt : Key → ByteArr 12 → Bytes → Bytes → Option Bytes
  markerDigest : W → ByteArr 32
  blake3 : Bytes → ByteArr 32

/-- The documented contract of the AEAD: decryption under the same key, nonce
and associated data undoes encryption, and a ciphertext is one tag longer. -/
structure Crypto.Correct {Key W : Type} (C : Crypto Key W) : Prop where
  unwrap_wrap : ∀ {k n a m w}, C.wrap k n a m = some w → C.unwrap k n a w = some m
  decrypt_encrypt : ∀ {k n a m c}, C.encrypt k n a m = some c → C.decrypt k n a c = some m
  length_encrypt : ∀ {k n a m c}, C.encrypt k n a m = some c → c.length = m.length + 16

/-- Primitives with the right shapes and no secrecy: an empty tag follows the
message. -/
def clearCrypto : Crypto Unit (ByteArr 48) where
  argon2id _ _ _ := some ()
  wrap _ _ _ m := ByteArr.ofList? 48 (m ++ List.replicate 16 0)
  unwrap _ _ _ w := some (w.val.take 32)
  hkdf _ _ _ := some ()
  encrypt _ _ _ m := some (m ++ List.replicate 16 0)
  decrypt _ _ _ c := some (c.take (c.length - 16))
  markerDigest w := ⟨w.val.take 32, by simp⟩
  blake3 _ := ByteArr.zero 32

theorem clearCrypto_correct : clearCrypto.Correct where
  unwrap_wrap := by
    intro k n a m w h
    have hw : m ++ List.replicate 16 0 = w.val := ByteArr.ofList?_eq_some.mp h
    have hlen := congrArg List.length hw
    simp only [List.length_append, List.length_replicate, ByteArr.length_val] at hlen
    have hm : m.length = 32 := by omega
    simp only [clearCrypto, ← hw, Option.some.injEq]
    rw [← hm, List.take_left]
  decrypt_encrypt := by
    intro k n a m c h
    obtain rfl : m ++ List.replicate 16 0 = c := Option.some.inj h
    simp [clearCrypto]
  length_encrypt := by
    intro k n a m c h
    obtain rfl : m ++ List.replicate 16 0 = c := Option.some.inj h
    simp

variable {Key W : Type} (C : Crypto Key W)

/-- An ASCII literal as bytes. -/
def ascii (s : String) : Bytes := s.toList.map fun c => UInt8.ofNat c.toNat

def le16 (n : UInt16) : Bytes := leBytes 2 n.toNat
def le32 (n : UInt32) : Bytes := leBytes 4 n.toNat
def le64 (n : UInt64) : Bytes := leBytes 8 n.toNat

/-! ## Key derivation -/

/-- `hkdf_key`. -/
def hkdfKey (dek : ByteArr 32) (containerId : ByteArr 16) (info : Bytes) : Result Key :=
  ofOption (C.hkdf dek containerId info) "HKDF output length is invalid"

/-- `derive_index_key`. -/
def deriveIndexKey (dek : ByteArr 32) (containerId : ByteArr 16) : Result Key :=
  hkdfKey C dek containerId (ascii "cipherfs-v2/index-key")

/-- `derive_file_key`. -/
def deriveFileKey (dek : ByteArr 32) (containerId fileId : ByteArr 16) : Result Key :=
  hkdfKey C dek containerId (ascii "cipherfs-v2/file-key" ++ fileId.val)

/-! ## Associated data -/

/-- `push_argon`. -/
def argonBytes (params : Argon2Params) : Bytes :=
  le32 params.mCost ++ le32 params.tCost ++ le32 params.pCost

/-- The fields that open both `immutable_aad` and `duress_aad`. -/
def layoutBytes (header : Header W) : Bytes :=
  header.magic.val ++ le16 header.version ++ le32 header.headerSize ++
    header.containerId.val ++ le32 header.chunkSize ++ le64 header.indexSize ++
    le64 header.dataSize ++ le64 header.entryCount

/-- `immutable_aad`. -/
def immutableAad (header : Header W) : Bytes :=
  layoutBytes header ++ header.indexNonce.val ++
    [if header.duress.enabled then 1 else 0] ++ header.duress.salt.val ++
    argonBytes header.duress.params ++ header.duress.nonce.val ++
    (C.markerDigest header.duress.encryptedMarker).val

/-- `slot_aad`. The wrapped key itself is not part of it. -/
def slotAad (header : Header W) (slot : KeySlot W) : Bytes :=
  immutableAad C header ++ ascii "/key-slot" ++ le64 slot.generation ++ slot.salt.val ++
    argonBytes slot.params ++ slot.nonce.val

/-- `duress_aad`. -/
def duressAad (header : Header W) : Bytes :=
  layoutBytes header ++ ascii "/duress-slot" ++ header.duress.salt.val ++
    argonBytes header.duress.params ++ header.duress.nonce.val

/-- `index_aad`. -/
def indexAad (header : Header W) : Bytes := immutableAad C header ++ ascii "/index"

/-- `chunk_nonce`. -/
def chunkNonce (chunkIndex : UInt64) : ByteArr 12 :=
  ⟨ascii "C2CH" ++ le64 chunkIndex, by simp [ascii, le64]⟩

/-- `chunk_aad`. -/
def chunkAad (header : Header W) (entry : Entry) (chunkIndex plaintextLen : UInt64) : Bytes :=
  header.magic.val ++ le16 header.version ++ header.containerId.val ++ entry.fileId.val ++
    le64 entry.id ++ le64 entry.size ++ le64 chunkIndex ++ le64 plaintextLen

/-- `encrypt_aead` on the index or a chunk. -/
def encryptAead (key : Key) (nonce : ByteArr 12) (aad data : Bytes) : Result Bytes :=
  ofOption (C.encrypt key nonce aad data) "Encryption failed"

/-- `decrypt_aead` on the index or a chunk. -/
def decryptAead (key : Key) (nonce : ByteArr 12) (aad data : Bytes) : Result Bytes :=
  ofOption (C.decrypt key nonce aad data) "Authentication failed"

/-- No header field outside the keyslots depends on a keyslot. -/
theorem immutableAad_setSlot (header : Header W) (i : SlotIndex) (s : KeySlot W) :
    immutableAad C (header.setSlot i s) = immutableAad C header := by
  cases i <;> rfl

end CipherFS.V2
