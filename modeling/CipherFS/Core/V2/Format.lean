import CipherFS.Framework.Bytes
import CipherFS.Framework.HashMap

/-!
# The v2 container format — records and limits

The records of `v2.rs` under the source's field names. The 48-byte wrapped keys
are a type parameter `W`: the codec and the containers on disk take
`W := ByteArr 48`, while the results about which password opens which keyslot
range over any `W` that an ideal cipher can produce.
-/

namespace CipherFS.V2

/-! ## Limits -/

def magicBytes : ByteArr 4 := ⟨[0x43, 0x46, 0x53, 0x02], rfl⟩
def version : UInt16 := 2
/-- `HEADER_SIZE`. -/
def headerSize : Nat := 4096
/-- `CHUNK_SIZE as u64`. -/
def chunkSize : UInt64 := 4194304
/-- `TAG_SIZE`. -/
def tagSize : UInt64 := 16
/-- `MAX_INDEX_SIZE`. -/
def maxIndexSize : UInt64 := 536870912
/-- `MAX_ENTRIES`. -/
def maxEntries : Nat := 5000000
/-- `MAX_NAME_BYTES`. -/
def maxNameBytes : Nat := 255
/-- `MAX_DEPTH`. -/
def maxDepth : UInt32 := 1024
def minArgonMemoryKib : UInt32 := 8192
def maxArgonMemoryKib : UInt32 := 1048576
def maxArgonTime : UInt32 := 10
def maxArgonLanes : UInt32 := 16

@[simp] theorem chunkSize_toNat : chunkSize.toNat = 4194304 := rfl
@[simp] theorem tagSize_toNat : tagSize.toNat = 16 := rfl
@[simp] theorem maxDepth_toNat : maxDepth.toNat = 1024 := rfl

/-! ## Header -/

structure Argon2Params where
  mCost : UInt32
  tCost : UInt32
  pCost : UInt32
deriving DecidableEq, Repr

/-- `Argon2Params::default()`. -/
def Argon2Params.default : Argon2Params := ⟨65536, 3, 4⟩

structure KeySlot (W : Type) where
  generation : UInt64
  salt : ByteArr 16
  params : Argon2Params
  nonce : ByteArr 12
  encryptedDek : W
deriving DecidableEq

structure DuressSlot (W : Type) where
  enabled : Bool
  salt : ByteArr 16
  params : Argon2Params
  nonce : ByteArr 12
  encryptedMarker : W
deriving DecidableEq

/-- `[KeySlot; 2]`: the two slots by position. -/
inductive SlotIndex where
  | first
  | second
deriving DecidableEq, Repr

namespace SlotIndex

/-- `1 - i`. -/
def other : SlotIndex → SlotIndex
  | first => second
  | second => first

@[simp] theorem other_other (i : SlotIndex) : i.other.other = i := by
  cases i <;> rfl

@[simp] theorem other_ne (i : SlotIndex) : i.other ≠ i := by
  cases i <;> decide

theorem eq_or_eq_other (i j : SlotIndex) : j = i ∨ j = i.other := by
  cases i <;> cases j <;> decide

end SlotIndex

/-- `Header`. `slots` is the array of the two keyslots. -/
structure Header (W : Type) where
  magic : ByteArr 4
  version : UInt16
  headerSize : UInt32
  containerId : ByteArr 16
  chunkSize : UInt32
  indexSize : UInt64
  dataSize : UInt64
  entryCount : UInt64
  indexNonce : ByteArr 12
  slot0 : KeySlot W
  slot1 : KeySlot W
  duress : DuressSlot W
deriving DecidableEq

namespace Header

variable {W : Type}

/-- `header.slots[i]`. -/
def slot (h : Header W) : SlotIndex → KeySlot W
  | .first => h.slot0
  | .second => h.slot1

/-- `header.slots[i] = s`. -/
def setSlot (h : Header W) (i : SlotIndex) (s : KeySlot W) : Header W :=
  match i with
  | .first => { h with slot0 := s }
  | .second => { h with slot1 := s }

/-- `header.slots.iter()`. -/
def slots (h : Header W) : List (KeySlot W) := [h.slot0, h.slot1]

@[simp] theorem slot_setSlot (h : Header W) (i : SlotIndex) (s : KeySlot W) :
    (h.setSlot i s).slot i = s := by cases i <;> rfl

@[simp] theorem slot_other_setSlot (h : Header W) (i : SlotIndex) (s : KeySlot W) :
    (h.setSlot i s).slot i.other = h.slot i.other := by cases i <;> rfl

@[simp] theorem duress_setSlot (h : Header W) (i : SlotIndex) (s : KeySlot W) :
    (h.setSlot i s).duress = h.duress := by cases i <;> rfl

@[simp] theorem setSlot_setSlot (h : Header W) (i : SlotIndex) (s t : KeySlot W) :
    (h.setSlot i s).setSlot i t = h.setSlot i t := by cases i <;> rfl

theorem mem_slots {h : Header W} {s : KeySlot W} :
    s ∈ h.slots ↔ ∃ i, h.slot i = s := by
  constructor
  · intro hs
    rcases List.mem_cons.mp hs with rfl | hs
    · exact ⟨.first, rfl⟩
    · exact ⟨.second, (List.mem_singleton.mp hs).symm⟩
  · rintro ⟨i, rfl⟩
    cases i <;> simp [slots, slot]

end Header

/-! ## Index -/

inductive EntryKind where
  | file
  | directory
deriving DecidableEq, Repr

structure Entry where
  id : UInt64
  parentId : UInt64
  name : String
  depth : UInt32
  kind : EntryKind
  fileId : ByteArr 16
  size : UInt64
  dataOffset : UInt64
  encryptedSize : UInt64
  chunkCount : UInt64
deriving DecidableEq

structure Index where
  entries : List Entry
deriving DecidableEq

/-- `ValidatedIndex`: the entries by id and the children by parent id. -/
structure ValidatedIndex where
  entries : HashMap UInt64 Entry
  children : HashMap UInt64 (List UInt64)

end CipherFS.V2
