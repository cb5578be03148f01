import CipherFS.Framework.Bytes

/-!
# MessagePack

Integers in their shortest form, arrays and booleans, and typed decoders for
them. A decoder reads from the front of its input and leaves the rest; `Reads`
says that it reads a given byte string whatever follows. An encoding is a list
of tokens, so that two encodings can be compared element by element.
-/

namespace CipherFS.MsgPack

/-! ## Big-endian integers -/

/-- `to_be_bytes` at a width. -/
def beBytes : Nat → Nat → Bytes
  | 0, _ => []
  | w + 1, n => UInt8.ofNat (n / 256 ^ w) :: beBytes w (n % 256 ^ w)

/-- `from_be_bytes`. -/
def ofBe : Bytes → Nat
  | [] => 0
  | b :: rest => b.toNat * 256 ^ rest.length + ofBe rest

@[simp] theorem length_beBytes : ∀ w n : Nat, (beBytes w n).length = w
  | 0, _ => rfl
  | w + 1, n => by rw [beBytes, List.length_cons, length_beBytes w]

theorem ofBe_beBytes : ∀ {w n : Nat}, n < 256 ^ w → ofBe (beBytes w n) = n
  | 0, n, h => by
      rw [Nat.pow_zero] at h
      rw [beBytes, ofBe]
      omega
  | w + 1, n, h => by
      have hpos : 0 < 256 ^ w := Nat.pow_pos (by decide)
      have hdiv : n / 256 ^ w < 256 := Nat.div_lt_of_lt_mul (by rwa [Nat.pow_succ] at h)
      rw [beBytes, ofBe, length_beBytes, ofBe_beBytes (Nat.mod_lt n hpos),
        UInt8.toNat_ofNat_of_lt' hdiv]
      exact Nat.div_add_mod' n (256 ^ w)

theorem ofBe_lt : ∀ b : Bytes, ofBe b < 256 ^ b.length
  | [] => by simp [ofBe]
  | b :: rest => by
      have hb := b.toNat_lt
      have hrest := ofBe_lt rest
      rw [ofBe, List.length_cons, Nat.pow_succ, Nat.mul_comm _ 256]
      calc b.toNat * 256 ^ rest.length + ofBe rest
          < b.toNat * 256 ^ rest.length + 256 ^ rest.length := by omega
        _ = (b.toNat + 1) * 256 ^ rest.length := by rw [Nat.succ_mul]
        _ ≤ 256 * 256 ^ rest.length := Nat.mul_le_mul_right _ (by omega)

/-! ## Encoding -/

/-- `write_uint`: the shortest form. -/
def encodeUint (n : Nat) : Bytes :=
  if n < 2 ^ 7 then [UInt8.ofNat n]
  else if n < 2 ^ 8 then 0xcc :: beBytes 1 n
  else if n < 2 ^ 16 then 0xcd :: beBytes 2 n
  else if n < 2 ^ 32 then 0xce :: beBytes 4 n
  else 0xcf :: beBytes 8 n

/-- `write_array_len`. -/
def encodeArrayLen (n : Nat) : Bytes :=
  if n < 16 then [UInt8.ofNat (0x90 + n)]
  else if n < 2 ^ 16 then 0xdc :: beBytes 2 n
  else 0xdd :: beBytes 4 n

/-- `write_bool`. -/
def encodeBool (b : Bool) : Bytes := [if b then 0xc3 else 0xc2]

/-- The bytes of a text. -/
def utf8Bytes (s : String) : Bytes := s.toUTF8.data.toList

/-- `write_str_len`, for a length that the format has room for. -/
def encodeStrLen (n : Nat) : Bytes :=
  if n < 32 then [UInt8.ofNat (0xa0 + n)]
  else if n < 2 ^ 8 then 0xd9 :: beBytes 1 n
  else if n < 2 ^ 16 then 0xda :: beBytes 2 n
  else 0xdb :: beBytes 4 n

/-- `write_str`. A text of `2 ^ 32` bytes or more has no form. -/
def encodeStr (s : String) : Option Bytes :=
  if (utf8Bytes s).length < 2 ^ 32 then
    some (encodeStrLen (utf8Bytes s).length ++ utf8Bytes s)
  else none

/-- The tokens of a `[u8; n]`, an array of integers. -/
def byteTokens (b : Bytes) : List Bytes :=
  encodeArrayLen b.length :: b.map fun x => encodeUint x.toNat

/-! ## Decoding -/

/-- Reads a value from the front of its input. -/
abbrev Decoder : Type → Type := StateT Bytes Option

namespace Decoder

/-- The next `w` bytes. -/
def takeBytes (w : Nat) : Decoder Bytes := fun b =>
  if w ≤ b.length then some (b.take w, b.drop w) else none

/-- The next byte. -/
def marker : Decoder UInt8
  | [] => none
  | b :: rest => some (b, rest)

/-- A value that has to satisfy a condition. -/
def ensure {α : Type} (p : α → Bool) (a : α) : Decoder α := fun b =>
  if p a then some (a, b) else none

/-- A signed integer of `w` bytes; a negative one does not fit any unsigned type. -/
def signed (w : Nat) : Decoder Nat := do
  let b ← takeBytes w
  ensure (· < 2 ^ (8 * w - 1)) (ofBe b)

/-- Any encoding of a nonnegative integer, shortest or not. -/
def int : Decoder Nat := do
  let m ← marker
  if m < 0x80 then return m.toNat
  else match m with
    | 0xcc => return ofBe (← takeBytes 1)
    | 0xcd => return ofBe (← takeBytes 2)
    | 0xce => return ofBe (← takeBytes 4)
    | 0xcf => return ofBe (← takeBytes 8)
    | 0xd0 => signed 1
    | 0xd1 => signed 2
    | 0xd2 => signed 4
    | 0xd3 => signed 8
    | _ => fun _ => none

/-- An unsigned integer type of so many bits. -/
def uint (bits : Nat) : Decoder Nat := do
  ensure (· < 2 ^ bits) (← int)

/-- `read_array_len`. -/
def arrayLen : Decoder Nat := do
  let m ← marker
  if 0x90 ≤ m ∧ m < 0xa0 then return m.toNat - 0x90
  else match m with
    | 0xdc => return ofBe (← takeBytes 2)
    | 0xdd => return ofBe (← takeBytes 4)
    | _ => fun _ => none

/-- An array that must have a given length: a struct or a tuple. -/
def array (n : Nat) : Decoder Unit := do
  let _ ← ensure (· = n) (← arrayLen)
  return ()

def bool : Decoder Bool := do
  match ← marker with
  | 0xc2 => return false
  | 0xc3 => return true
  | _ => fun _ => none

/-- `read_str_len`. -/
def strLen : Decoder Nat := do
  let m ← marker
  if 0xa0 ≤ m ∧ m < 0xc0 then return m.toNat - 0xa0
  else match m with
    | 0xd9 => return ofBe (← takeBytes 1)
    | 0xda => return ofBe (← takeBytes 2)
    | 0xdb => return ofBe (← takeBytes 4)
    | _ => fun _ => none

/-- A text. -/
def str : Decoder String := do
  let b ← takeBytes (← strLen)
  fun rest => (String.fromUTF8? ⟨b.toArray⟩).map fun s => (s, rest)

/-- So many elements. -/
def times {α : Type} (d : Decoder α) : (n : Nat) → Decoder { l : List α // l.length = n }
  | 0 => return ⟨[], rfl⟩
  | n + 1 => do
    let a ← d
    let rest ← times d n
    return ⟨a :: rest.val, by rw [List.length_cons, rest.property]⟩

def u8 : Decoder UInt8 := UInt8.ofNat <$> uint 8
def u16 : Decoder UInt16 := UInt16.ofNat <$> uint 16
def u32 : Decoder UInt32 := UInt32.ofNat <$> uint 32
def u64 : Decoder UInt64 := UInt64.ofNat <$> uint 64

/-- `[u8; n]`. -/
def byteArr (n : Nat) : Decoder (ByteArr n) := do
  array n
  times u8 n

end Decoder

/-! ## What a decoder reads -/

open Decoder

variable {α β : Type}

/-- The decoder reads exactly these bytes, whatever follows them. -/
def Reads (d : Decoder α) (b : Bytes) (a : α) : Prop := ∀ rest, d (b ++ rest) = some (a, rest)

theorem Reads.pure (a : α) : Reads (Pure.pure a) [] a := fun _ => rfl

theorem Reads.bind {d : Decoder α} {f : α → Decoder β} {b c : Bytes} {a : α} {v : β}
    (h : Reads d b a) (hf : Reads (f a) c v) : Reads (d >>= f) (b ++ c) v := by
  intro rest
  have hd : d (b ++ (c ++ rest)) = some (a, c ++ rest) := h (c ++ rest)
  rw [List.append_assoc]
  change (d (b ++ (c ++ rest))).bind _ = _
  rw [hd]
  exact hf rest

theorem Reads.bind_nil {d : Decoder α} {f : α → Decoder β} {b : Bytes} {a : α} {v : β}
    (h : Reads d b a) (hf : Reads (f a) [] v) : Reads (d >>= f) b v := by
  have hread := h.bind hf
  rwa [List.append_nil] at hread

theorem Reads.map {d : Decoder α} {b : Bytes} {a : α} (f : α → β) (h : Reads d b a) :
    Reads (f <$> d) b (f a) := by
  intro rest
  change (d (b ++ rest)).bind _ = _
  rw [h rest]
  rfl

theorem reads_takeBytes (b : Bytes) : Reads (takeBytes b.length) b b := by
  intro rest
  simp [takeBytes]

theorem reads_marker (m : UInt8) : Reads marker [m] m := fun _ => rfl

theorem reads_ensure {p : α → Bool} {a : α} (h : p a = true) : Reads (ensure p a) [] a := by
  intro rest
  simp [ensure, h]

/-- The markers of the wide integers, and how many bytes follow them. -/
def wideMarkers : List (UInt8 × Nat) := [(0xcc, 1), (0xcd, 2), (0xce, 4), (0xcf, 8)]

/-- An integer of a given width, whatever its bytes. -/
theorem reads_int_wide {m : UInt8} {b : Bytes} (hm : (m, b.length) ∈ wideMarkers) :
    Reads int (m :: b) (ofBe b) := by
  have htake : Reads (do return ofBe (← takeBytes b.length)) b (ofBe b) :=
    (reads_takeBytes b).bind_nil (Reads.pure (ofBe b))
  simp only [wideMarkers, List.mem_cons, Prod.mk.injEq, List.not_mem_nil, or_false] at hm
  rcases hm with ⟨rfl, hlen⟩ | ⟨rfl, hlen⟩ | ⟨rfl, hlen⟩ | ⟨rfl, hlen⟩ <;>
  · rw [hlen] at htake
    exact Reads.bind (b := [_]) (reads_marker _) htake

theorem toNat_ofNat_of_lt {n : Nat} (h : n < 256) : (UInt8.ofNat n).toNat = n :=
  UInt8.toNat_ofNat_of_lt' h

theorem reads_int_small {n : Nat} (h : n < 2 ^ 7) : Reads int [UInt8.ofNat n] n := by
  have hn : (UInt8.ofNat n).toNat = n := toNat_ofNat_of_lt (by omega)
  have hlt : UInt8.ofNat n < 0x80 := by
    rw [UInt8.lt_iff_toNat_lt, hn]
    exact h
  refine Reads.bind_nil (reads_marker (UInt8.ofNat n)) ?_
  rw [if_pos hlt, hn]
  exact Reads.pure n

theorem reads_int {n : Nat} (h : n < 2 ^ 64) : Reads int (encodeUint n) n := by
  have wide (m : UInt8) (w : Nat) (hm : (m, w) ∈ wideMarkers) (hn : n < 256 ^ w) :
      Reads int (m :: beBytes w n) n := by
    have hread := reads_int_wide (m := m) (b := beBytes w n) (by rwa [length_beBytes])
    rwa [ofBe_beBytes hn] at hread
  unfold encodeUint
  split
  · rename_i hn
    exact reads_int_small hn
  split
  · exact wide 0xcc 1 (by decide) (by omega)
  split
  · exact wide 0xcd 2 (by decide) (by omega)
  split
  · exact wide 0xce 4 (by decide) (by omega)
  · exact wide 0xcf 8 (by decide) (by omega)

theorem Reads.uint {bits n : Nat} {b : Bytes} (h : Reads int b n) (hn : n < 2 ^ bits) :
    Reads (uint bits) b n :=
  h.bind_nil (reads_ensure (decide_eq_true hn))

theorem reads_uint {bits n : Nat} (hbits : bits ≤ 64) (h : n < 2 ^ bits) :
    Reads (Decoder.uint bits) (encodeUint n) n :=
  (reads_int (Nat.lt_of_lt_of_le h (Nat.pow_le_pow_right (by decide) hbits))).uint h

theorem reads_u8 (x : UInt8) : Reads u8 (encodeUint x.toNat) x := by
  have hread := (reads_uint (by decide) x.toNat_lt).map UInt8.ofNat
  rwa [UInt8.ofNat_toNat] at hread

theorem reads_u16 (x : UInt16) : Reads u16 (encodeUint x.toNat) x := by
  have hread := (reads_uint (by decide) x.toNat_lt).map UInt16.ofNat
  rwa [UInt16.ofNat_toNat] at hread

theorem reads_u32 (x : UInt32) : Reads u32 (encodeUint x.toNat) x := by
  have hread := (reads_uint (by decide) x.toNat_lt).map UInt32.ofNat
  rwa [UInt32.ofNat_toNat] at hread

theorem reads_u64 (x : UInt64) : Reads u64 (encodeUint x.toNat) x := by
  have hread := (reads_uint (by decide) x.toNat_lt).map UInt64.ofNat
  rwa [UInt64.ofNat_toNat] at hread

theorem reads_bool (b : Bool) : Reads bool (encodeBool b) b := by
  cases b <;> exact fun _ => rfl

theorem reads_arrayLen {n : Nat} (h : n < 2 ^ 32) : Reads arrayLen (encodeArrayLen n) n := by
  have wide (m : UInt8) (w : Nat) (hm : (m, w) ∈ [((0xdc : UInt8), 2), (0xdd, 4)])
      (hn : n < 256 ^ w) : Reads arrayLen (m :: beBytes w n) n := by
    have htake : Reads (do return ofBe (← takeBytes w)) (beBytes w n) n := by
      have hread := reads_takeBytes (beBytes w n)
      rw [length_beBytes] at hread
      refine hread.bind_nil ?_
      rw [ofBe_beBytes hn]
      exact Reads.pure n
    simp only [List.mem_cons, Prod.mk.injEq, List.not_mem_nil, or_false] at hm
    rcases hm with ⟨rfl, rfl⟩ | ⟨rfl, rfl⟩ <;>
    · exact Reads.bind (b := [_]) (reads_marker _) htake
  unfold encodeArrayLen
  split
  · rename_i hn
    have hm : (UInt8.ofNat (0x90 + n)).toNat = 0x90 + n := toNat_ofNat_of_lt (by omega)
    refine Reads.bind_nil (reads_marker (UInt8.ofNat (0x90 + n))) ?_
    have hrange : 0x90 ≤ UInt8.ofNat (0x90 + n) ∧ UInt8.ofNat (0x90 + n) < 0xa0 := by
      rw [UInt8.le_iff_toNat_le, UInt8.lt_iff_toNat_lt, hm]
      exact ⟨Nat.le_add_right _ _, by change 144 + n < 160; omega⟩
    rw [if_pos hrange, hm, Nat.add_sub_cancel_left]
    exact Reads.pure n
  split
  · exact wide 0xdc 2 (by decide) (by omega)
  · exact wide 0xdd 4 (by decide) (by omega)

theorem reads_array {n : Nat} (h : n < 2 ^ 32) : Reads (array n) (encodeArrayLen n) () := by
  refine (reads_arrayLen h).bind_nil ?_
  exact Reads.bind_nil (reads_ensure (decide_eq_true rfl)) (Reads.pure ())

/-- A fixed number of elements, each read by itself. -/
theorem reads_times {d : Decoder α} {tokens : List Bytes} {l : List α}
    (h : List.Forall₂ (fun t a => Reads d t a) tokens l) :
    Reads (times d l.length) tokens.flatten ⟨l, rfl⟩ := by
  induction h with
  | nil => exact Reads.pure _
  | cons hhead _ ih => exact Reads.bind hhead (Reads.bind_nil ih (Reads.pure _))

theorem reads_byteArr {n : Nat} (hn : n < 2 ^ 32) (b : ByteArr n) :
    Reads (byteArr n) (byteTokens b.val).flatten b := by
  obtain ⟨l, rfl⟩ := b
  refine Reads.bind (reads_array hn) (reads_times ?_)
  rw [List.forall₂_map_left_iff]
  exact List.forall₂_same.mpr fun x _ => reads_u8 x

/-! ## Text -/

theorem fromUTF8_utf8Bytes (s : String) : String.fromUTF8? ⟨(utf8Bytes s).toArray⟩ = some s := by
  rw [utf8Bytes, Array.toArray_toList]
  unfold String.fromUTF8?
  exact dif_pos s.isValidUTF8

theorem reads_strLen {n : Nat} (h : n < 2 ^ 32) : Reads strLen (encodeStrLen n) n := by
  have wide (m : UInt8) (w : Nat) (hm : (m, w) ∈ [((0xd9 : UInt8), 1), (0xda, 2), (0xdb, 4)])
      (hn : n < 256 ^ w) : Reads strLen (m :: beBytes w n) n := by
    have htake : Reads (do return ofBe (← takeBytes w)) (beBytes w n) n := by
      have hread := reads_takeBytes (beBytes w n)
      rw [length_beBytes] at hread
      refine hread.bind_nil ?_
      rw [ofBe_beBytes hn]
      exact Reads.pure n
    simp only [List.mem_cons, Prod.mk.injEq, List.not_mem_nil, or_false] at hm
    rcases hm with ⟨rfl, rfl⟩ | ⟨rfl, rfl⟩ | ⟨rfl, rfl⟩ <;>
    · exact Reads.bind (b := [_]) (reads_marker _) htake
  unfold encodeStrLen
  split
  · rename_i hn
    have hm : (UInt8.ofNat (0xa0 + n)).toNat = 0xa0 + n := toNat_ofNat_of_lt (by omega)
    refine Reads.bind_nil (reads_marker (UInt8.ofNat (0xa0 + n))) ?_
    have hrange : 0xa0 ≤ UInt8.ofNat (0xa0 + n) ∧ UInt8.ofNat (0xa0 + n) < 0xc0 := by
      rw [UInt8.le_iff_toNat_le, UInt8.lt_iff_toNat_lt, hm]
      exact ⟨Nat.le_add_right _ _, by change 160 + n < 192; omega⟩
    rw [if_pos hrange, hm, Nat.add_sub_cancel_left]
    exact Reads.pure n
  split
  · exact wide 0xd9 1 (by decide) (by omega)
  split
  · exact wide 0xda 2 (by decide) (by omega)
  · exact wide 0xdb 4 (by decide) (by omega)

theorem reads_str {s : String} {b : Bytes} (h : encodeStr s = some b) : Reads str b s := by
  unfold encodeStr at h
  split at h
  · rename_i hlen
    obtain rfl := Option.some.inj h
    refine Reads.bind (reads_strLen hlen) (Reads.bind_nil (reads_takeBytes _) ?_)
    intro rest
    rw [fromUTF8_utf8Bytes]
    rfl
  · cases h

end CipherFS.MsgPack
