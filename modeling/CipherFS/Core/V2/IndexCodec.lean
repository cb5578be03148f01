import CipherFS.Core.V2.HeaderCodec
import CipherFS.Core.V2.OpenFile
import CipherFS.Framework.SeqAccess

/-!
# The encoded index

`rmp_serde::to_vec` on the index, and the hand-written deserializer of `Index` and
`BoundedEntries`: it looks at the number of entries before it reads the first one,
and counts them while it reads.
-/

namespace CipherFS.V2

open MsgPack Decoder

/-! ## Encoding -/

/-- The name of a variant. -/
def EntryKind.variant : EntryKind → String
  | .file => "File"
  | .directory => "Directory"

/-- `rmp_serde::to_vec` on an entry. -/
def Entry.encode (e : Entry) : Option Bytes := do
  let name ← encodeStr e.name
  let kind ← encodeStr e.kind.variant
  return encodeArrayLen 10 ++ (encodeUint e.id.toNat ++ (encodeUint e.parentId.toNat ++ (name ++
    (encodeUint e.depth.toNat ++ (kind ++ ((byteTokens e.fileId.val).flatten ++
    (encodeUint e.size.toNat ++ (encodeUint e.dataOffset.toNat ++
    (encodeUint e.encryptedSize.toNat ++ encodeUint e.chunkCount.toNat)))))))))

/-- `rmp_serde::to_vec` on an index. An array has at most `2 ^ 32 - 1` elements. -/
def Index.encode (index : Index) : Option Bytes := do
  let entries ← index.entries.mapM Entry.encode
  if index.entries.length < 2 ^ 32 then
    return encodeArrayLen 1 ++ (encodeArrayLen index.entries.length ++ entries.flatten)
  else none

/-! ## Decoding -/

/-- A variant by its name. -/
def EntryKind.ofVariant (variant : String) : Option EntryKind :=
  if variant = "File" then some .file
  else if variant = "Directory" then some .directory
  else none

def EntryKind.decode : Decoder EntryKind := do
  let variant ← str
  fun rest => (EntryKind.ofVariant variant).map fun kind => (kind, rest)

def Entry.decode : Decoder Entry := do
  array 10
  let id ← u64
  let parentId ← u64
  let name ← str
  let depth ← u32
  let kind ← EntryKind.decode
  let fileId ← byteArr 16
  let size ← u64
  let dataOffset ← u64
  let encryptedSize ← u64
  let chunkCount ← u64
  return ⟨id, parentId, name, depth, kind, fileId, size, dataOffset, encryptedSize, chunkCount⟩

/-- `BoundedEntries::deserialize`: the visitor over the array, which must have been
read to its end. -/
def BoundedEntries.decode (entry : Decoder Entry) : Decoder (List Entry) := do
  let len ← arrayLen
  fun input =>
    match (arrayAccess entry).collect maxEntries (len, input) with
    | some (entries, (0, rest)) => some (entries, rest)
    | _ => none

/-- `Index::deserialize`: a tuple of one element. -/
def Index.decode (entry : Decoder Entry) : Decoder Index := do
  let len ← arrayLen
  let _ ← ensure (· ≠ 0) len
  let entries ← BoundedEntries.decode entry
  let _ ← ensure (· = 0) (len - 1)
  return ⟨entries⟩

/-! ## Round trip -/

theorem reads_kind {kind : EntryKind} {b : Bytes} (h : encodeStr kind.variant = some b) :
    Reads EntryKind.decode b kind := by
  refine (reads_str h).bind_nil ?_
  cases kind <;> exact fun _ => rfl

theorem reads_entry {e : Entry} {b : Bytes} (h : e.encode = some b) :
    Reads Entry.decode b e := by
  simp only [Entry.encode, Option.bind_eq_bind, Option.bind_eq_some_iff] at h
  obtain ⟨name, hname, kind, hkind, hb⟩ := h
  obtain rfl := Option.some.inj hb
  refine Reads.bind (reads_array (by decide)) (Reads.bind (reads_u64 _) ?_)
  refine Reads.bind (reads_u64 _) (Reads.bind (reads_str hname) ?_)
  refine Reads.bind (reads_u32 _) (Reads.bind (reads_kind hkind) ?_)
  refine Reads.bind (reads_byteArr (by decide) _) (Reads.bind (reads_u64 _) ?_)
  refine Reads.bind (reads_u64 _) (Reads.bind (reads_u64 _) ?_)
  exact Reads.bind_nil (reads_u64 _) (Reads.pure _)

/-- The entries of an encoded index, each read by itself. -/
theorem reads_entries : ∀ {entries : List Entry} {tokens : List Bytes},
    entries.mapM Entry.encode = some tokens →
      List.Forall₂ (fun t e => Reads Entry.decode t e) tokens entries
  | [], tokens, h => by
      obtain rfl : [] = tokens := Option.some.inj h
      exact .nil
  | e :: rest, tokens, h => by
      rw [List.mapM_cons] at h
      obtain ⟨t, ht, h⟩ := Option.bind_eq_some_iff.mp h
      obtain ⟨ts, hts, h⟩ := Option.bind_eq_some_iff.mp h
      obtain rfl := Option.some.inj h
      exact .cons (reads_entry ht) (reads_entries hts)

variable {index : Index} {b : Bytes} {entry : Decoder Entry}

theorem encode_eq_some (h : index.encode = some b) : ∃ tokens,
    index.entries.mapM Entry.encode = some tokens ∧ index.entries.length < 2 ^ 32 ∧
      b = encodeArrayLen 1 ++ (encodeArrayLen index.entries.length ++ tokens.flatten) := by
  simp only [Index.encode, Option.bind_eq_bind, Option.bind_eq_some_iff] at h
  obtain ⟨tokens, htokens, h⟩ := h
  split at h
  · rename_i hlen
    exact ⟨tokens, htokens, hlen, (Option.some.inj h).symm⟩
  · cases h

theorem reads_boundedEntries {entries : List Entry} {tokens : List Bytes}
    (h : List.Forall₂ (fun t e => Reads entry t e) tokens entries)
    (hlen : entries.length ≤ maxEntries) :
    Reads (BoundedEntries.decode entry) (encodeArrayLen entries.length ++ tokens.flatten)
      entries := by
  have hmax : maxEntries = 5000000 := rfl
  refine Reads.bind (reads_arrayLen (by omega)) fun rest => ?_
  have hhint : ∀ n ∈ (arrayAccess entry).sizeHint (entries.length, tokens.flatten ++ rest),
      n ≤ maxEntries := by
    intro n hn
    obtain rfl := Option.some.inj hn
    exact hlen
  have hcollect := SeqAccess.collect_eq_some.mpr ⟨hhint, yields_arrayAccess h rest, hlen⟩
  rw [hcollect]
  rfl

/-- **An index of at most so many entries is read back.** -/
theorem reads_index (h : index.encode = some b) (hlen : index.entries.length ≤ maxEntries) :
    Reads (Index.decode Entry.decode) b index := by
  obtain ⟨tokens, htokens, -, rfl⟩ := encode_eq_some h
  refine Reads.bind (reads_arrayLen (by decide)) ?_
  refine Reads.bind (b := []) (reads_ensure (by decide)) ?_
  refine Reads.bind_nil (reads_boundedEntries (reads_entries htokens) hlen) ?_
  exact Reads.bind_nil (reads_ensure (by decide)) (Reads.pure _)

/-! ## The limit -/

theorem bind_eq_some {α β : Type} {d : Decoder α} {f : α → Decoder β} {input : Bytes}
    {r : β × Bytes} : (d >>= f) input = some r ↔ ∃ a rest, d input = some (a, rest) ∧
      f a rest = some r := by
  show ((d input).bind fun p => f p.1 p.2) = some r ↔ _
  rw [Option.bind_eq_some_iff]
  constructor
  · rintro ⟨⟨a, rest⟩, hd, hf⟩
    exact ⟨a, rest, hd, hf⟩
  · rintro ⟨a, rest, hd, hf⟩
    exact ⟨(a, rest), hd, hf⟩

theorem ensure_eq_some {α : Type} {p : α → Bool} {a a' : α} {input rest : Bytes}
    (h : ensure p a input = some (a', rest)) : p a = true ∧ rest = input := by
  unfold ensure at h
  split at h
  · rename_i hp
    cases h
    exact ⟨hp, rfl⟩
  · cases h

/-- What is accepted declares and contains at most so many entries. -/
theorem boundedEntries_le {input rest : Bytes} {entries : List Entry}
    (h : BoundedEntries.decode entry input = some (entries, rest)) :
    ∃ len input', arrayLen input = some (len, input') ∧ entries.length = len ∧
      len ≤ maxEntries := by
  obtain ⟨len, input', hlen, h⟩ := bind_eq_some.mp h
  split at h
  · rename_i es rest' hcollect
    cases h
    obtain ⟨-, hyields, hle⟩ := SeqAccess.collect_eq_some.mp hcollect
    have hcount : entries.length = len := (length_of_yields hyields).1
    exact ⟨len, input', hlen, hcount, hcount ▸ hle⟩
  · cases h

/-- **What declares more entries is refused**, however its entries are encoded. -/
theorem index_refused {input rest rest' : Bytes} {outer len : Nat}
    (houter : arrayLen input = some (outer, rest)) (hlen : arrayLen rest = some (len, rest'))
    (hmany : maxEntries < len) : Index.decode entry input = none := by
  rw [Option.eq_none_iff_forall_ne_some]
  intro r h
  obtain ⟨outer', input₁, houter', h⟩ := bind_eq_some.mp h
  obtain ⟨_, input₂, hensure, h⟩ := bind_eq_some.mp h
  obtain ⟨entries, input₃, hentries, -⟩ := bind_eq_some.mp h
  obtain ⟨-, rfl⟩ := ensure_eq_some hensure
  rw [houter] at houter'
  cases houter'
  obtain ⟨len', input₄, hlen', -, hle⟩ := boundedEntries_le hentries
  rw [hlen] at hlen'
  cases hlen'
  omega

/-- An index that is too large is encoded to what is refused. -/
theorem large_index_refused (h : index.encode = some b) (hmany : maxEntries < index.entries.length)
    (rest : Bytes) : Index.decode entry (b ++ rest) = none := by
  obtain ⟨tokens, -, hlen, rfl⟩ := encode_eq_some h
  rw [List.append_assoc, List.append_assoc]
  exact index_refused (reads_arrayLen (by decide) _) (reads_arrayLen hlen _) hmany

/-- Every index without overlong names is encoded. -/
theorem exists_encode (hnames : ∀ e ∈ index.entries, (utf8Bytes e.name).length < 2 ^ 32)
    (hlen : index.entries.length < 2 ^ 32) : ∃ b, index.encode = some b := by
  have hentry : ∀ e ∈ index.entries, ∃ t, Entry.encode e = some t := by
    intro e he
    obtain ⟨kind, hkind⟩ : ∃ kind, encodeStr e.kind.variant = some kind := by
      cases e.kind <;> exact ⟨_, rfl⟩
    rw [Entry.encode, encodeStr, if_pos (hnames e he), hkind]
    exact ⟨_, rfl⟩
  have hall : ∀ l : List Entry, (∀ e ∈ l, ∃ t, Entry.encode e = some t) →
      ∃ ts, l.mapM Entry.encode = some ts := by
    intro l hl
    induction l with
    | nil => exact ⟨[], rfl⟩
    | cons e rest ih =>
        rw [List.forall_mem_cons] at hl
        obtain ⟨t, ht⟩ := hl.1
        obtain ⟨ts, hts⟩ := ih hl.2
        exact ⟨t :: ts, by rw [List.mapM_cons, ht, hts]; rfl⟩
  obtain ⟨tokens, htokens⟩ := hall _ hentry
  rw [Index.encode, htokens]
  exact ⟨_, if_pos hlen⟩

/-! ## Both codecs -/

/-- **The header and the index are read back.** Every header fits into its image, and
is decoded from it with the padding behind. An index of at most `maxEntries`
entries is decoded from its encoding to the same entries in the same order, and
whatever declares or contains more is refused: by the number that the array
declares, whatever the entries look like, and by the count of the visitor, whatever
the sequence gives. -/
theorem codecs_round_trip :
    (∀ header : Header (ByteArr 48), ∃ image padding, serializeHeader header = .ok image ∧
      header.encode.length ≤ headerSize ∧ image.length = headerSize ∧
      Header.decode image = some (header, padding)) ∧
    (∀ index : Index, (∀ e ∈ index.entries, (utf8Bytes e.name).length < 2 ^ 32) →
      index.entries.length < 2 ^ 32 → ∃ b, index.encode = some b) ∧
    (∀ (index : Index) b, index.encode = some b → index.entries.length ≤ maxEntries →
      ∀ rest, Index.decode Entry.decode (b ++ rest) = some (index, rest)) ∧
    (∀ (index : Index) b, index.encode = some b → maxEntries < index.entries.length →
      ∀ rest, Index.decode Entry.decode (b ++ rest) = none) ∧
    (∀ (entry : Decoder Entry) input rest rest' outer len, arrayLen input = some (outer, rest) →
      arrayLen rest = some (len, rest') → maxEntries < len → Index.decode entry input = none) ∧
    ∀ {σ : Type} (S : SeqAccess σ Entry) s entries s',
      S.collect maxEntries s = some (entries, s') ↔
        (∀ n ∈ S.sizeHint s, n ≤ maxEntries) ∧ S.Yields s entries s' ∧
          entries.length ≤ maxEntries := by
  refine ⟨?_, fun _ => exists_encode, fun _ _ => reads_index, fun _ _ => large_index_refused, ?_, ?_⟩
  · intro header
    exact ⟨header.image, _, serializeHeader_eq header, length_encode_le header,
      length_image header, reads_header header _⟩
  · intro entry input rest rest' outer len
    exact index_refused
  · intro σ S s entries s'
    exact SeqAccess.collect_eq_some

/-- The declared array of the limit check: four billion entries and none behind. -/
theorem codecs_round_trip_sample :
    Index.decode Entry.decode [0x91, 0xdd, 0xff, 0xff, 0xff, 0xff] = none :=
  codecs_round_trip.2.2.2.2.1 Entry.decode _ [0xdd, 0xff, 0xff, 0xff, 0xff] [] 1 4294967295
    (by decide) (by decide) (by decide)

/-- `rmp_serde` on an index that can be read back. -/
def rmpCodec : IndexCodec where
  encode index := if index.entries.length ≤ maxEntries then index.encode else none
  decode b := (Index.decode Entry.decode b).map Prod.fst

theorem rmpCodec_lawful : rmpCodec.Lawful := by
  intro index b h
  rw [rmpCodec] at h
  dsimp only at h
  split at h
  · rename_i hlen
    have hread := reads_index h hlen []
    rw [List.append_nil] at hread
    show (Index.decode Entry.decode b).map Prod.fst = some index
    rw [hread]
    rfl
  · cases h

end CipherFS.V2
