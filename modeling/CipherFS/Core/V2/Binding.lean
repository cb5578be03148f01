import CipherFS.Core.V2.ChunkLayout
import CipherFS.Core.V2.KeySlots

/-!
# What the associated data binds

The associated data are concatenations without length prefixes. Every part has a
fixed width, so each of the four determines its fields, and the four have
different lengths, so none is ever another. With ideal primitives a sealed record
therefore opens only in the place it was sealed for.
-/

namespace CipherFS.V2

open Result

variable {Key W : Type} {C : Crypto Key W} {h h' : Header W} {e e' : Entry}

/-! ## Fixed-width parts -/

theorem append_inj_of_length {a b c d : Bytes} (hlen : b.length = d.length) :
    a ++ b = c ++ d ↔ a = c ∧ b = d := by
  constructor
  · exact fun heq => List.append_inj' heq hlen
  · rintro ⟨rfl, rfl⟩
    rfl

@[simp] theorem le16_inj {a b : UInt16} : le16 a = le16 b ↔ a = b := by
  refine ⟨fun heq => UInt16.toNat_inj.mp ?_, congrArg le16⟩
  exact leBytes_inj a.toNat_lt b.toNat_lt heq

@[simp] theorem le32_inj {a b : UInt32} : le32 a = le32 b ↔ a = b := by
  refine ⟨fun heq => UInt32.toNat_inj.mp ?_, congrArg le32⟩
  exact leBytes_inj a.toNat_lt b.toNat_lt heq

@[simp] theorem le64_inj {a b : UInt64} : le64 a = le64 b ↔ a = b := by
  refine ⟨fun heq => UInt64.toNat_inj.mp ?_, congrArg le64⟩
  exact leBytes_inj a.toNat_lt b.toNat_lt heq

@[simp] theorem length_le16 (n : UInt16) : (le16 n).length = 2 := length_leBytes 2 _
@[simp] theorem length_le32 (n : UInt32) : (le32 n).length = 4 := length_leBytes 4 _
@[simp] theorem length_le64 (n : UInt64) : (le64 n).length = 8 := length_leBytes 8 _

theorem length_argonBytes (p : Argon2Params) : (argonBytes p).length = 12 := by
  simp [argonBytes]

theorem argonBytes_inj {p q : Argon2Params} : argonBytes p = argonBytes q ↔ p = q := by
  obtain ⟨m, t, l⟩ := p
  obtain ⟨m', t', l'⟩ := q
  simp [argonBytes, append_inj_of_length]

theorem length_layoutBytes (h : Header W) : (layoutBytes h).length = 54 := by
  simp [layoutBytes]

/-- The fields that all associated data of the header carry. -/
def SameLayout (h h' : Header W) : Prop :=
  h.magic = h'.magic ∧ h.version = h'.version ∧ h.headerSize = h'.headerSize ∧
    h.containerId = h'.containerId ∧ h.chunkSize = h'.chunkSize ∧ h.indexSize = h'.indexSize ∧
    h.dataSize = h'.dataSize ∧ h.entryCount = h'.entryCount

theorem layoutBytes_inj : layoutBytes h = layoutBytes h' ↔ SameLayout h h' := by
  simp [layoutBytes, SameLayout, append_inj_of_length, Subtype.ext_iff]

/-! ## The header fields -/

/-- The headers agree outside the keyslots, up to the digest of the marker. -/
structure SameImmutable (C : Crypto Key W) (h h' : Header W) : Prop where
  layout : SameLayout h h'
  indexNonce : h.indexNonce = h'.indexNonce
  enabled : h.duress.enabled = h'.duress.enabled
  salt : h.duress.salt = h'.duress.salt
  params : h.duress.params = h'.duress.params
  nonce : h.duress.nonce = h'.duress.nonce
  marker : C.markerDigest h.duress.encryptedMarker = C.markerDigest h'.duress.encryptedMarker

theorem immutableAad_inj (heq : immutableAad C h = immutableAad C h') : SameImmutable C h h' := by
  have hflag (a b : Bool) : (if a then (1 : UInt8) else 0) = (if b then 1 else 0) ↔ a = b := by
    cases a <;> cases b <;> decide
  simp only [immutableAad, append_inj_of_length, length_argonBytes, ByteArr.length_val,
    List.length_singleton, List.cons.injEq, and_true, hflag, argonBytes_inj, layoutBytes_inj,
    ← Subtype.ext_iff] at heq
  obtain ⟨⟨⟨⟨⟨⟨hl, hi⟩, he⟩, hs⟩, hp⟩, hn⟩, hm⟩ := heq
  exact ⟨hl, hi, he, hs, hp, hn, hm⟩

theorem length_immutableAad (C : Crypto Key W) (h : Header W) :
    (immutableAad C h).length = 139 := by
  simp [immutableAad, length_layoutBytes, length_argonBytes]

theorem indexAad_inj (heq : indexAad C h = indexAad C h') : SameImmutable C h h' :=
  immutableAad_inj ((append_inj_of_length rfl).mp heq).1

theorem slotAad_inj {s s' : KeySlot W} (heq : slotAad C h s = slotAad C h' s') :
    SameImmutable C h h' := by
  simp only [slotAad, append_inj_of_length, length_argonBytes, ByteArr.length_val,
    length_le64] at heq
  exact immutableAad_inj heq.1.1.1.1.1

/-- **Chunk data are bound to container, file, position and length.** -/
theorem chunkAad_inj {i i' n n' : UInt64} (heq : chunkAad h e i n = chunkAad h' e' i' n') :
    h.containerId = h'.containerId ∧ e.fileId = e'.fileId ∧ e.id = e'.id ∧ e.size = e'.size ∧
      i = i' ∧ n = n' := by
  simp only [chunkAad, append_inj_of_length, ByteArr.length_val, length_le64, le64_inj,
    ← Subtype.ext_iff] at heq
  obtain ⟨⟨⟨⟨⟨⟨-, hc⟩, hf⟩, hid⟩, hs⟩, hi⟩, hn⟩ := heq
  exact ⟨hc, hf, hid, hs, hi, hn⟩

/-! ## The four are apart -/

theorem length_chunkAad (h : Header W) (e : Entry) (i n : UInt64) :
    (chunkAad h e i n).length = 70 := by
  simp [chunkAad]

theorem length_indexAad (C : Crypto Key W) (h : Header W) : (indexAad C h).length = 145 := by
  rw [indexAad, List.length_append, length_immutableAad]
  rfl

theorem length_slotAad (C : Crypto Key W) (h : Header W) (s : KeySlot W) :
    (slotAad C h s).length = 196 := by
  have htag : (ascii "/key-slot").length = 9 := rfl
  simp [slotAad, length_immutableAad, htag, length_argonBytes]

theorem length_duressAad (h : Header W) : (duressAad h).length = 106 := by
  have htag : (ascii "/duress-slot").length = 12 := rfl
  simp [duressAad, length_layoutBytes, htag, length_argonBytes]

theorem ne_of_length_ne {a b : Bytes} (hlen : a.length ≠ b.length) : a ≠ b :=
  fun heq => hlen (congrArg List.length heq)

theorem chunkNonce_inj {i i' : UInt64} (heq : chunkNonce i = chunkNonce i') : i = i' := by
  have hbytes : ascii "C2CH" ++ le64 i = ascii "C2CH" ++ le64 i' := congrArg Subtype.val heq
  exact le64_inj.mp (List.append_cancel_left hbytes)

/-! ## Ideal data encryption -/

/-- A ciphertext opens under the key, nonce and associated data it was made with
and no others; HKDF has no collisions. -/
structure Crypto.IdealData (C : Crypto Key W) : Prop where
  decrypt_eq_some : ∀ {k n a c m}, C.decrypt k n a c = some m ↔ C.encrypt k n a m = some c
  encrypt_inj : ∀ {k n a m k' n' a' m' c}, C.encrypt k n a m = some c →
    C.encrypt k' n' a' m' = some c → k = k' ∧ n = n' ∧ a = a' ∧ m = m'
  hkdf_inj : ∀ {d c i d' c' i' k}, C.hkdf d c i = some k → C.hkdf d' c' i' = some k →
    d = d' ∧ c = c' ∧ i = i'

variable {opened : OpenedContainer W} {i i' : UInt64} {plain c m m' : Bytes} {key key' : Key}
  {dek : ByteArr 32} {span : ChunkSpan} {w : FileWrite}

theorem deriveFileKey_inj (hD : C.IdealData) {d d' : ByteArr 32} {c c' f f' : ByteArr 16}
    (hk : deriveFileKey C d c f = .ok key) (hk' : deriveFileKey C d' c' f' = .ok key) :
    d = d' ∧ c = c' ∧ f = f' := by
  rw [deriveFileKey, hkdfKey, ofOption_eq_ok] at hk hk'
  obtain ⟨hd, hc, hf⟩ := hD.hkdf_inj hk hk'
  exact ⟨hd, hc, Subtype.ext (List.append_cancel_left hf)⟩

/-- What `decrypt_chunk` accepts was sealed with exactly its own arguments. -/
theorem sealed_of_decryptChunk (hD : C.IdealData)
    (hdec : decryptChunk C opened e i = .ok plain)
    (hspan : chunkSpan opened.dataStart e i = .ok span)
    (hread : readExactAt opened.file span.position span.cipherLen = .ok c) :
    ∃ key, deriveFileKey C opened.dek opened.header.containerId e.fileId = .ok key ∧
      C.encrypt key (chunkNonce i) (chunkAad opened.header e i span.plainLen) plain = some c := by
  simp only [decryptChunk, hspan, hread, ok_bind, bind_eq_ok, decryptAead, ofOption_eq_ok] at hdec
  obtain ⟨key, hkey, text, htext, -, -, heq⟩ := hdec
  cases heq
  exact ⟨key, hkey, hD.decrypt_eq_some.mp htext⟩

/-- A chunk record opens only in its own place. -/
theorem decryptChunk_binds (hD : C.IdealData) (hdec : decryptChunk C opened e i = .ok plain)
    (hspan : chunkSpan opened.dataStart e i = .ok span)
    (hread : readExactAt opened.file span.position span.cipherLen = .ok c)
    (hkey : deriveFileKey C dek h'.containerId e'.fileId = .ok key) {dataStart : UInt64}
    (hsealed : encryptChunk C h' key dataStart e' i' m = .ok w) (hw : w.2 = c) :
    dek = opened.dek ∧ h'.containerId = opened.header.containerId ∧ e'.fileId = e.fileId ∧
      e'.id = e.id ∧ e'.size = e.size ∧ i' = i ∧ UInt64.ofNat m.length = span.plainLen ∧
      m = plain := by
  obtain ⟨key', hkey', hsealed'⟩ := sealed_of_decryptChunk hD hdec hspan hread
  simp only [encryptChunk, encryptAead, bind_eq_ok, ofOption_eq_ok] at hsealed
  obtain ⟨c', henc, destination, -, hres⟩ := hsealed
  cases hres
  obtain rfl : c' = c := hw
  obtain ⟨rfl, -, haad, rfl⟩ := hD.encrypt_inj henc hsealed'
  obtain ⟨hc, hf, hid, hs, hi, hn⟩ := chunkAad_inj haad
  exact ⟨(deriveFileKey_inj hD hkey hkey').1, hc, hf, hid, hs, hi, hn, rfl⟩

/-- An encrypted index is no chunk record. -/
theorem decryptChunk_ne_index (hD : C.IdealData) (hdec : decryptChunk C opened e i = .ok plain)
    (hspan : chunkSpan opened.dataStart e i = .ok span)
    (hread : readExactAt opened.file span.position span.cipherLen = .ok c) {n : ByteArr 12} :
    encryptAead C key n (indexAad C h') m ≠ .ok c := by
  intro hsealed
  rw [encryptAead, ofOption_eq_ok] at hsealed
  obtain ⟨key', -, hsealed'⟩ := sealed_of_decryptChunk hD hdec hspan hread
  obtain ⟨-, -, haad, -⟩ := hD.encrypt_inj hsealed hsealed'
  have hlen := congrArg List.length haad
  rw [length_indexAad, length_chunkAad] at hlen
  cases hlen

theorem index_binds (hD : C.IdealData) {n n' : ByteArr 12}
    (hsealed : encryptAead C key n (indexAad C h) m = .ok c)
    (hopen : decryptAead C key' n' (indexAad C h') c = .ok m') : SameImmutable C h h' := by
  rw [encryptAead, ofOption_eq_ok] at hsealed
  rw [decryptAead, ofOption_eq_ok, hD.decrypt_eq_some] at hopen
  exact indexAad_inj (hD.encrypt_inj hsealed hopen).2.2.1

theorem slot_binds (hC : C.Ideal) {s s' : KeySlot W} {p : String} {dek : ByteArr 32}
    (hopen : Opens C h s p dek) (hsame : s'.encryptedDek = s.encryptedDek)
    (hunwrap : C.unwrap key' s'.nonce (slotAad C h' s') s'.encryptedDek = some m) :
    SameImmutable C h h' := by
  obtain ⟨kek, -, hwrap⟩ := hopen
  rw [hsame, hC.unwrap_eq_some] at hunwrap
  exact slotAad_inj (hC.wrap_inj hwrap hunwrap).2.2.1

/-- Two chunks of an accepted index with one file id and one nonce are one. -/
theorem AcceptedIndex.chunk_unique {os : Platform} {es : List Entry}
    (hidx : AcceptedIndex os h es) (he : e ∈ es) (he' : e' ∈ es) (hk : e.kind = .file)
    (hk' : e'.kind = .file) (hfile : e.fileId = e'.fileId) (hnonce : chunkNonce i = chunkNonce i') :
    e = e' ∧ i = i' :=
  ⟨hidx.eq_of_fileId_eq he he' hk hk' hfile, chunkNonce_inj hnonce⟩

/-- **Associated data bind every record to its place.** The first conjuncts are
about the byte strings and the accepted index alone, the last ones about what
opens under ideal primitives. -/
theorem aad_binds_records (C : Crypto Key W) :
    (∀ (h h' : Header W) e e' i i' n n', chunkAad h e i n = chunkAad h' e' i' n' →
      h.containerId = h'.containerId ∧ e.fileId = e'.fileId ∧ e.id = e'.id ∧ e.size = e'.size ∧
        i = i' ∧ n = n') ∧
    (∀ h h' : Header W, immutableAad C h = immutableAad C h' → SameImmutable C h h') ∧
    (∀ (h₁ h₂ h₃ h₄ : Header W) e i n s, [chunkAad h₁ e i n, indexAad C h₂, slotAad C h₃ s,
      duressAad h₄].Nodup) ∧
    (∀ ω os (h : Header W) index v, validateIndex ω os h index = .ok v →
      ∀ e ∈ index.entries, ∀ e' ∈ index.entries, e.kind = .file → e'.kind = .file →
        ∀ i i', e.fileId = e'.fileId → chunkNonce i = chunkNonce i' → e = e' ∧ i = i') ∧
    (C.IdealData → ∀ (opened : OpenedContainer W) e i plain span c,
      decryptChunk C opened e i = .ok plain → chunkSpan opened.dataStart e i = .ok span →
      readExactAt opened.file span.position span.cipherLen = .ok c →
      (∀ (h' : Header W) e' i' m dek key dataStart w,
        deriveFileKey C dek h'.containerId e'.fileId = .ok key →
        encryptChunk C h' key dataStart e' i' m = .ok w → w.2 = c →
        dek = opened.dek ∧ h'.containerId = opened.header.containerId ∧ e'.fileId = e.fileId ∧
          e'.id = e.id ∧ e'.size = e.size ∧ i' = i ∧ UInt64.ofNat m.length = span.plainLen ∧
          m = plain) ∧
      ∀ (h' : Header W) key n m, encryptAead C key n (indexAad C h') m ≠ .ok c) ∧
    (C.Ideal → ∀ (h h' : Header W) s s' p dek key' m, Opens C h s p dek →
      s'.encryptedDek = s.encryptedDek →
      C.unwrap key' s'.nonce (slotAad C h' s') s'.encryptedDek = some m →
      SameImmutable C h h') ∧
    (C.IdealData → ∀ (h h' : Header W) key key' n n' m m' c,
      encryptAead C key n (indexAad C h) m = .ok c →
      decryptAead C key' n' (indexAad C h') c = .ok m' → SameImmutable C h h') := by
  refine ⟨fun h h' e e' i i' n n' => chunkAad_inj, fun h h' => immutableAad_inj, ?_, ?_, ?_, ?_, ?_⟩
  · intro h₁ h₂ h₃ h₄ e i n s
    have hlen : ([chunkAad h₁ e i n, indexAad C h₂, slotAad C h₃ s, duressAad h₄].map
        List.length).Nodup := by
      simp only [List.map_cons, List.map_nil, length_chunkAad, length_indexAad, length_slotAad,
        length_duressAad]
      decide
    exact List.Nodup.of_map _ hlen
  · intro ω os h index v hv e he e' he' hk hk' i i' hfile hnonce
    exact (validateIndex_eq_ok.mp hv).1.chunk_unique he he' hk hk' hfile hnonce
  · intro hD opened e i plain span c hdec hspan hread
    exact ⟨fun h' e' i' m dek key dataStart w hkey hsealed hw =>
      decryptChunk_binds hD hdec hspan hread hkey hsealed hw,
      fun h' key n m => decryptChunk_ne_index hD hdec hspan hread⟩
  · exact fun hC h h' s s' p dek key' m => slot_binds hC
  · exact fun hD h h' key key' n n' m m' c => index_binds hD

/-! ## One sealed chunk -/

abbrev SealKey : Type := IdealKey ⊕ ByteArr 32 × ByteArr 16 × Bytes

/-- Ideal primitives that have sealed one chunk: the five bytes of `sampleFile`. -/
def sealedOnce : Crypto SealKey (SealKey × ByteArr 12 × Bytes × Bytes) where
  argon2id p s q := some (.inl (p, s, q))
  wrap k n a m := some (k, n, a, m)
  unwrap k n a w := if w.1 = k ∧ w.2.1 = n ∧ w.2.2.1 = a then some w.2.2.2 else none
  hkdf d c i := some (.inr (d, c, i))
  encrypt k n a m :=
    if k = sampleFileKey ∧ n = chunkNonce 0 ∧ a = sampleChunkAad ∧ m = ascii "hello" then
      some (ascii "hello" ++ List.replicate 16 0)
    else none
  decrypt k n a c :=
    if k = sampleFileKey ∧ n = chunkNonce 0 ∧ a = sampleChunkAad ∧
      c = ascii "hello" ++ List.replicate 16 0 then some (ascii "hello")
    else none
  markerDigest _ := ByteArr.zero 32
  blake3 _ := ByteArr.zero 32
where
  sampleFileKey : SealKey := .inr (ByteArr.zero 32, ByteArr.zero 16,
    ascii "cipherfs-v2/file-key" ++ sampleFile.fileId.val)
  sampleChunkAad : Bytes := chunkAad (sampleHeader ()) sampleFile 0 5

theorem sealedOnce_ideal : sealedOnce.Ideal where
  unwrap_eq_some := by
    rintro k n a ⟨k', n', a', m'⟩ m
    simp only [sealedOnce, Option.ite_none_right_eq_some, Option.some.injEq, Prod.mk.injEq]
    constructor
    · rintro ⟨⟨rfl, rfl, rfl⟩, rfl⟩
      exact ⟨rfl, rfl, rfl, rfl⟩
    · rintro ⟨rfl, rfl, rfl, rfl⟩
      exact ⟨⟨rfl, rfl, rfl⟩, rfl⟩
  wrap_inj := by
    intro k n a m k' n' a' m' w hw hw'
    obtain rfl := Option.some.inj hw
    cases Option.some.inj hw'
    exact ⟨rfl, rfl, rfl, rfl⟩
  argon2_inj := by
    intro p p' s q k hk hk'
    obtain rfl := Option.some.inj hk
    cases Option.some.inj hk'
    rfl
  argon2_uniform := fun _ _ _ => rfl

theorem sealedOnce_idealData : sealedOnce.IdealData where
  decrypt_eq_some := by
    intro k n a c m
    simp only [sealedOnce, Option.ite_none_right_eq_some, Option.some.injEq]
    constructor
    · rintro ⟨⟨hk, hn, ha, rfl⟩, rfl⟩
      exact ⟨⟨hk, hn, ha, rfl⟩, rfl⟩
    · rintro ⟨⟨hk, hn, ha, rfl⟩, rfl⟩
      exact ⟨⟨hk, hn, ha, rfl⟩, rfl⟩
  encrypt_inj := by
    intro k n a m k' n' a' m' c hc hc'
    simp only [sealedOnce, Option.ite_none_right_eq_some] at hc hc'
    obtain ⟨⟨rfl, rfl, rfl, rfl⟩, -⟩ := hc
    obtain ⟨⟨rfl, rfl, rfl, rfl⟩, -⟩ := hc'
    exact ⟨rfl, rfl, rfl, rfl⟩
  hkdf_inj := by
    intro d c i d' c' i' k hk hk'
    obtain rfl := Option.some.inj hk
    cases Option.some.inj hk'
    exact ⟨rfl, rfl, rfl⟩

/-- The container of `sampleIndex` with that chunk in its place. -/
def sealedContainer : OpenedContainer (SealKey × ByteArr 12 × Bytes × Bytes) where
  file := List.replicate 4196 0 ++ (ascii "hello" ++ List.replicate 16 0)
  header := sampleHeader (.inl ("", ByteArr.zero 16, .default), ByteArr.zero 12, [], [])
  index := indexOf sampleIndex.entries
  dek := ByteArr.zero 32
  dataStart := 4196

theorem decryptChunk_sealedContainer :
    decryptChunk sealedOnce sealedContainer sampleFile 0 = .ok (ascii "hello") := by
  decide +kernel

/-- A slot that the password `p` opens in it. -/
def sealedSlot : KeySlot (SealKey × ByteArr 12 × Bytes × Bytes) :=
  { sealedContainer.header.slot0 with
    encryptedDek := (.inl ("p", ByteArr.zero 16, .default), ByteArr.zero 12,
      slotAad sealedOnce sealedContainer.header sealedContainer.header.slot0,
      (ByteArr.zero 32).val) }

theorem aad_binds_records_sample :
    decryptChunk sealedOnce sealedContainer sampleFile 0 = .ok (ascii "hello") ∧
    (∀ (h' : Header (SealKey × ByteArr 12 × Bytes × Bytes)) e' i' m dek key dataStart w,
      deriveFileKey sealedOnce dek h'.containerId e'.fileId = .ok key →
      encryptChunk sealedOnce h' key dataStart e' i' m = .ok w →
      w.2 = ascii "hello" ++ List.replicate 16 0 → e'.fileId = sampleFile.fileId ∧ i' = 0) ∧
    ∀ h' key' m, sealedOnce.unwrap key' sealedSlot.nonce (slotAad sealedOnce h' sealedSlot)
      sealedSlot.encryptedDek = some m → SameImmutable sealedOnce sealedContainer.header h' := by
  have hread : readExactAt sealedContainer.file 4196 21 =
      .ok (ascii "hello" ++ List.replicate 16 0) := by
    decide +kernel
  have hopens : Opens sealedOnce sealedContainer.header sealedSlot "p" (ByteArr.zero 32) :=
    ⟨.inl ("p", ByteArr.zero 16, .default), rfl, rfl⟩
  obtain ⟨-, -, -, -, hchunk, hslot, -⟩ := aad_binds_records sealedOnce
  refine ⟨decryptChunk_sealedContainer, fun h' e' i' m dek key dataStart w hkey hsealed hw => ?_,
    fun h' key' m => hslot sealedOnce_ideal _ h' _ _ _ _ key' m hopens rfl⟩
  obtain ⟨hbinds, -⟩ := hchunk sealedOnce_idealData sealedContainer sampleFile 0 _ ⟨5, 21, 4196⟩ _
    decryptChunk_sealedContainer (by decide +kernel) hread
  obtain ⟨-, -, hfile, -, -, hindex, -⟩ := hbinds h' e' i' m dek key dataStart w hkey hsealed hw
  exact ⟨hfile, hindex⟩

end CipherFS.V2
