import CipherFS.Core.V2.HeaderCodec
import CipherFS.Framework.FileBytes

/-!
# Which format a file has

Before a container is opened, its format is told from its first bytes: a header of
the second format, or one of the first, which is no longer read. Both have their
magic number in the same field, so no file has both.
-/

namespace CipherFS

open MsgPack V2 Result

variable {α β : Type} {file b c rest : Bytes} {d : Decoder α} {n m : Nat}

/-! ## Decoders read from the front -/

namespace MsgPack

/-- What a decoder makes of some bytes does not change when more follow. -/
def Local (d : Decoder α) : Prop :=
  ∀ b c a rest, d b = some (a, rest) → d (b ++ c) = some (a, rest ++ c)

theorem Local.pure (a : α) : Local (Pure.pure a) := by
  rintro b c a' rest h
  obtain ⟨rfl, rfl⟩ := Prod.mk.inj (Option.some.inj h)
  rfl

theorem Local.bind {f : α → Decoder β} (hd : Local d) (hf : ∀ a, Local (f a)) :
    Local (d >>= f) := by
  intro b c v rest h
  obtain ⟨⟨a, mid⟩, ha, hv⟩ := Option.bind_eq_some_iff.mp h
  show (d (b ++ c)).bind _ = _
  rw [hd b c a mid ha]
  exact hf a mid c v rest hv

theorem Local.fail : Local (fun _ => none : Decoder α) := by
  intro b c a rest h
  cases h

theorem local_marker : Local Decoder.marker := by
  intro b c m rest h
  cases b with
  | nil => cases h
  | cons x b =>
      obtain ⟨rfl, rfl⟩ := Prod.mk.inj (Option.some.inj h)
      rfl

theorem local_takeBytes (w : Nat) : Local (Decoder.takeBytes w) := by
  intro b c a rest h
  unfold Decoder.takeBytes at h ⊢
  split at h
  · rename_i hw
    obtain ⟨rfl, rfl⟩ := Prod.mk.inj (Option.some.inj h)
    rw [if_pos (by rw [List.length_append]; omega), List.take_append_of_le_length hw,
      List.drop_append_of_le_length hw]
  · cases h

theorem local_arrayLen : Local Decoder.arrayLen := by
  refine local_marker.bind fun m => ?_
  have hwide : ∀ w, Local (do return ofBe (← Decoder.takeBytes w)) := fun w =>
    (local_takeBytes w).bind fun _ => .pure _
  split
  · exact .pure _
  · split
    · exact hwide 2
    · exact hwide 4
    · exact .fail

/-- One length stands at the front of an encoding. -/
theorem arrayLen_of_array {f : Unit → Decoder α} {v : α × Bytes}
    (h : (Decoder.array n >>= f) b = some v) : ∃ rest, Decoder.arrayLen b = some (n, rest) := by
  obtain ⟨⟨_, mid⟩, harray, -⟩ := Option.bind_eq_some_iff.mp h
  obtain ⟨⟨k, rest⟩, hlen, hensure⟩ := Option.bind_eq_some_iff.mp harray
  obtain ⟨⟨k', rest'⟩, hensure, -⟩ := Option.bind_eq_some_iff.mp hensure
  unfold Decoder.ensure at hensure
  split at hensure
  · rename_i hk
    obtain rfl := of_decide_eq_true hk
    exact ⟨rest, hlen⟩
  · cases hensure

end MsgPack

/-! ## The first format -/

namespace Layout

def magicBytes : ByteArr 4 := ⟨[0x43, 0x46, 0x53, 0x01], rfl⟩

def headerSize : Nat := 512

structure Argon2Params where
  mCost : UInt32
  tCost : UInt32
  pCost : UInt32

structure Header where
  magic : ByteArr 4
  salt : ByteArr 16
  argon2Params : Argon2Params
  masterNonce : ByteArr 32
  dekNonce : ByteArr 12
  indexNonce : ByteArr 12
  duressHash : ByteArr 32
  encryptedDek : ByteArr 48
  indexSize : UInt64
  maxIndexSize : UInt64

open Decoder

def Argon2Params.decode : Decoder Argon2Params := do
  array 3
  let mCost ← u32
  let tCost ← u32
  let pCost ← u32
  return ⟨mCost, tCost, pCost⟩

def Header.decode : Decoder Header := do
  array 10
  let magic ← byteArr 4
  let salt ← byteArr 16
  let argon2Params ← Argon2Params.decode
  let masterNonce ← byteArr 32
  let dekNonce ← byteArr 12
  let indexNonce ← byteArr 12
  let duressHash ← byteArr 32
  let encryptedDek ← byteArr 48
  let indexSize ← u64
  let maxIndexSize ← u64
  return ⟨magic, salt, argon2Params, masterNonce, dekNonce, indexNonce, duressHash, encryptedDek,
    indexSize, maxIndexSize⟩

end Layout

/-! ## Detection -/

inductive Format where
  | v1
  | v2
deriving DecidableEq, Repr

namespace Format

def v1MigrationMessage : String :=
  "CipherFS v1 is not supported by v3.0.0. Use v2.2.0-beta.1 or earlier to extract a trusted v1 container, then pack the extracted directory as v2. See README.md#legacy-v1-migration"

/-- `rmp_serde::from_read` for the two types of header. It reads a struct from an
array, as it is written, and also from a map. -/
structure HeaderReader where
  v1 : Bytes → Option Layout.Header
  v2 : Bytes → Option (V2.Header (ByteArr 48))

/-- Both types have a field `magic`, the first of an array or the one of that name in
a map: read from the front of the same bytes they have the same one. -/
def HeaderReader.SameMagic (r : HeaderReader) : Prop :=
  ∀ b c h1 h2, r.v1 b = some h1 → r.v2 (b ++ c) = some h2 → h1.magic = h2.magic

/-- The first bytes of a file, if there are so many, read as a header. -/
def headerAt {H : Type} (size : Nat) (read : Bytes → Option H) (file : Bytes) : Option H :=
  if file.length ≥ size then read (file.take size) else none

/-- `detect`, on the bytes of the file. -/
def detect (r : HeaderReader) (file : Bytes) : Result Format :=
  if (headerAt V2.headerSize r.v2 file).any (·.magic = V2.magicBytes) then .ok .v2
  else if (headerAt Layout.headerSize r.v1 file).any (·.magic = Layout.magicBytes) then .ok .v1
  else bail "Not a supported CipherFS container"

/-- `require_v2`. -/
def requireV2 (r : HeaderReader) (file : Bytes) : Result Unit := do
  match ← detect r file with
  | .v2 => .ok ()
  | .v1 => bail v1MigrationMessage

/-- `read_header`, with which every `open` begins. -/
def readHeader (r : HeaderReader) (file : Bytes) : Result (V2.Header (ByteArr 48)) := do
  (if file.length < V2.headerSize then Result.ioError "failed to fill whole buffer"
    else .ok ()).context "Unable to read v2 header"
  let header ← (ofOption (r.v2 (file.take V2.headerSize)) "invalid encoding").context
    "Invalid v2 header encoding"
  validateHeaderBasic header (some (UInt64.ofNat file.length))
  .ok header

/-- The file begins with a header of the format. -/
def Begins (r : HeaderReader) (file : Bytes) : Format → Prop
  | .v1 => ∃ h, headerAt Layout.headerSize r.v1 file = some h ∧ h.magic = Layout.magicBytes
  | .v2 => ∃ h, headerAt V2.headerSize r.v2 file = some h ∧ h.magic = V2.magicBytes

variable {r : HeaderReader}

theorem headerAt_eq_some {H : Type} {size : Nat} {read : Bytes → Option H} {h : H} :
    headerAt size read file = some h ↔ size ≤ file.length ∧ read (file.take size) = some h := by
  unfold headerAt
  split
  · rename_i hsize
    exact (and_iff_right hsize).symm
  · rename_i hsize
    exact iff_of_false nofun fun hh => hsize hh.1

/-- The shorter header is read from the front of what the longer one is read from. -/
theorem take_headerSize (file : Bytes) : file.take V2.headerSize =
    file.take Layout.headerSize ++ (file.drop Layout.headerSize).take
      (V2.headerSize - Layout.headerSize) := by
  rw [← List.take_add]
  rfl

/-- A file has one magic number. -/
theorem not_begins_both (hr : r.SameMagic) (h : Begins r file .v2) : ¬Begins r file .v1 := by
  rintro ⟨h1, hat1, hmagic1⟩
  obtain ⟨h2, hat2, hmagic2⟩ := h
  obtain ⟨-, hread1⟩ := headerAt_eq_some.mp hat1
  obtain ⟨-, hread2⟩ := headerAt_eq_some.mp hat2
  rw [take_headerSize] at hread2
  have hsame := hr _ _ _ _ hread1 hread2
  rw [hmagic1, hmagic2] at hsame
  revert hsame
  decide

theorem any_headerAt {H : Type} {size : Nat} {read : Bytes → Option H} {p : H → Prop}
    [DecidablePred p] : (headerAt size read file).any (p ·) = true ↔
      ∃ h, headerAt size read file = some h ∧ p h := by
  cases headerAt size read file with
  | none => simp
  | some h => simp

/-- **A format is detected exactly if the file begins with its header.** -/
theorem detect_eq_ok (hr : r.SameMagic) {f : Format} :
    detect r file = .ok f ↔ Begins r file f := by
  have h1 : (headerAt Layout.headerSize r.v1 file).any (·.magic = Layout.magicBytes) = true ↔
      Begins r file .v1 := any_headerAt
  have h2 : (headerAt V2.headerSize r.v2 file).any (·.magic = V2.magicBytes) = true ↔
      Begins r file .v2 := any_headerAt
  unfold detect
  split
  · rename_i hv2
    have hv2 := h2.mp hv2
    cases f with
    | v1 => exact iff_of_false (by simp) (not_begins_both hr hv2)
    | v2 => exact iff_of_true rfl hv2
  · rename_i hv2
    have hv2 := mt h2.mpr hv2
    split
    · rename_i hv1
      cases f with
      | v1 => exact iff_of_true rfl (h1.mp hv1)
      | v2 => exact iff_of_false (by simp) hv2
    · rename_i hv1
      cases f with
      | v1 => exact iff_of_false (by simp) (mt h1.mpr hv1)
      | v2 => exact iff_of_false (by simp) hv2

theorem detect_eq_error {e : Error} (h : detect r file = .error e) :
    detect r file = bail "Not a supported CipherFS container" := by
  unfold detect at h ⊢
  split at h
  · cases h
  · split at h
    · cases h
    · rename_i hv2 hv1
      rw [if_neg hv2, if_neg hv1]

/-- A header that is accepted is one of the second format. -/
theorem begins_of_readHeader {header : V2.Header (ByteArr 48)}
    (h : readHeader r file = .ok header) : Begins r file .v2 := by
  simp only [readHeader, bind_eq_ok, context_eq_ok, ofOption_eq_ok] at h
  obtain ⟨_, hlen, header', hread, _, hvalid, heq⟩ := h
  obtain rfl := Except.ok.inj heq
  have hsize : V2.headerSize ≤ file.length := by
    split at hlen
    · cases hlen
    · rename_i hlong
      exact Nat.not_lt.mp hlong
  exact ⟨header', headerAt_eq_some.mpr ⟨hsize, hread⟩,
    (validateHeaderBasic_eq_ok.mp hvalid).1.magic⟩

/-- The reader of headers in the encoding in which they are written. -/
def HeaderReader.arrays : HeaderReader where
  v1 b := (Layout.Header.decode b).map (·.1)
  v2 b := (V2.Header.decode b).map (·.1)

/-- The lengths of the two arrays differ. -/
theorem HeaderReader.arrays_sameMagic : arrays.SameMagic := by
  intro b c h1 h2 hread1 hread2
  obtain ⟨⟨h1, rest1⟩, hdec1, -⟩ := Option.map_eq_some_iff.mp hread1
  obtain ⟨⟨h2, rest2⟩, hdec2, -⟩ := Option.map_eq_some_iff.mp hread2
  obtain ⟨r1, hlen1⟩ := arrayLen_of_array hdec1
  obtain ⟨r2, hlen2⟩ := arrayLen_of_array hdec2
  rw [local_arrayLen _ c _ _ hlen1] at hlen2
  exact absurd (Prod.mk.inj (Option.some.inj hlen2)).1 (by decide)

theorem readHeader_arrays (file : Bytes) : readHeader .arrays file = V2.readHeader file := by
  have hread : HeaderReader.arrays.v2 (file.take V2.headerSize) =
      (V2.Header.decode (file.take V2.headerSize)).map (·.1) := rfl
  rw [readHeader, V2.readHeader, hread]
  by_cases hlen : file.length < V2.headerSize
  · rw [if_pos hlen]
    rfl
  · rw [if_neg hlen]
    cases V2.Header.decode (file.take V2.headerSize) with
    | none => rfl
    | some h => rfl

/-- A container of the first format, with nothing in it. -/
def legacyFile : Bytes :=
  let zeros (n : Nat) : List Bytes := byteTokens (List.replicate n 0)
  setLen (encodeArrayLen 10 :: byteTokens Layout.magicBytes.val ++ zeros 16 ++
    [encodeArrayLen 3, encodeUint 65536, encodeUint 3, encodeUint 4] ++ zeros 32 ++ zeros 12 ++
    zeros 12 ++ zeros 32 ++ zeros 48 ++ [encodeUint 0, encodeUint 0]).flatten 512

end Format

end CipherFS
