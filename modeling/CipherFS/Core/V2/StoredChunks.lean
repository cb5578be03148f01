import CipherFS.Core.V2.ChunkLayout
import CipherFS.Core.V2.OpenFile

/-!
# What a container stores of a file

A chunk that has been written reads back as the plaintext it was made from, and
goes on doing so as long as its own extent is left alone. The chunks of a file,
joined, are its content.
-/

namespace CipherFS.V2

open Result Tiling

variable {Key W : Type} {C : Crypto Key W} {opened : OpenedContainer W} {e : Entry} {k : UInt64}
  {file file' data buffer : Bytes}

/-- A chunk is read from its own extent. -/
theorem decryptChunk_congr (hfits : FileFits opened.dataStart e) (hk : k < e.chunkCount)
    (hlen : file.length = file'.length)
    (h : ∀ i, Covers (chunkExtent opened.dataStart e k.toNat) i →
      file.getD i 0 = file'.getD i 0) :
    decryptChunk C { opened with file := file } e k =
      decryptChunk C { opened with file := file' } e k := by
  obtain ⟨span, hspan, -, hpos, hcipher⟩ := hfits.chunkSpan_ok hk
  have hread : readAt file span.position.toNat span.cipherLen.toNat =
      readAt file' span.position.toNat span.cipherLen.toNat := by
    apply readAt_congr hlen
    intro i hlo hhi
    apply h
    rw [hpos] at hlo hhi
    rw [hcipher] at hhi
    exact ⟨hlo, hhi⟩
  simp only [decryptChunk, hspan, ok_bind, readExactAt, hread]

/-- **What was encrypted into its place decrypts from there.** -/
theorem decryptChunk_writeAt (hC : C.Correct) (hfits : FileFits opened.dataStart e)
    (hk : k < e.chunkCount) {key : Key} {write : FileWrite}
    (hkey : deriveFileKey C opened.dek opened.header.containerId e.fileId = .ok key)
    (hlen : buffer.length = Chunking.len 4194304 e.size.toNat k.toNat)
    (hw : encryptChunk C opened.header key opened.dataStart e k buffer = .ok write) :
    decryptChunk C { opened with file := writeAt file write.1 write.2 } e k = .ok buffer := by
  obtain ⟨span, hspan, hplain, hpos, hcipher⟩ := hfits.chunkSpan_ok hk
  have hextent := writeExtent_of_encryptChunk hC hfits hk hlen hw
  have hstart : write.1 = (chunkExtent opened.dataStart e k.toNat).1 := congrArg Prod.fst hextent
  have hlength : write.2.length = (chunkExtent opened.dataStart e k.toNat).2 :=
    congrArg Prod.snd hextent
  have hread : readExactAt (writeAt file write.1 write.2) span.position span.cipherLen =
      .ok write.2 := by
    rw [readExactAt_eq_ok, hpos, hcipher, ← hstart, ← hlength]
    exact readAt_writeAt _ _ _
  have hbuffer : UInt64.ofNat buffer.length = span.plainLen := by
    rw [hlen, ← hplain, UInt64.ofNat_toNat]
  simp only [encryptChunk, encryptAead, bind_eq_ok, ofOption_eq_ok] at hw
  obtain ⟨encrypted, henc, _, -, heq⟩ := hw
  obtain rfl := Except.ok.inj heq
  have hdec := hC.decrypt_encrypt henc
  rw [hbuffer] at hdec
  have hequal : rejectIf (buffer.length ≠ span.plainLen.toNat) "Chunk plaintext length mismatch" =
      .ok () := by
    rw [rejectIf_eq_ok, ne_eq, not_not, hlen, hplain]
  simp only [decryptChunk, hspan, ok_bind, hread, hkey, decryptAead, hdec, ofOption, hequal]

/-! ## A whole file -/

/-- The chunks of a file, one after the other. -/
def fileContent (C : Crypto Key W) (opened : OpenedContainer W) (entry : Entry) :
    Result Bytes := do
  let parts ← entry.chunkIndices.mapM (decryptChunk C opened entry)
  .ok parts.flatten

/-- The part of a content that a chunk is for. -/
def chunkOf (data : Bytes) (entry : Entry) (chunkIndex : UInt64) : Bytes :=
  slice data (chunkIndex.toNat * 4194304)
    (chunkIndex.toNat * 4194304 + Chunking.len 4194304 entry.size.toNat chunkIndex.toNat)

theorem mem_chunkIndices : k ∈ e.chunkIndices ↔ k < e.chunkCount := by
  rw [Entry.chunkIndices, List.mem_map, UInt64.lt_iff_toNat_lt]
  constructor
  · rintro ⟨i, hi, rfl⟩
    have hlt := List.mem_range.mp hi
    rwa [UInt64.toNat_ofNat_of_lt' (Nat.lt_trans hlt e.chunkCount.toNat_lt)]
  · intro hk
    exact ⟨k.toNat, List.mem_range.mpr hk, UInt64.ofNat_toNat⟩

/-- The chunks of a content join to what the entry takes of it. -/
theorem flatten_chunkOf (hcount : e.chunkCount.toNat = Chunking.count 4194304 e.size.toNat) :
    (e.chunkIndices.map (chunkOf data e)).flatten = data.take e.size.toNat := by
  have hpos : 0 < 4194304 := by decide
  have hprefix : ∀ n ≤ e.chunkCount.toNat,
      (((List.range n).map UInt64.ofNat).map (chunkOf data e)).flatten =
        data.take (min (n * 4194304) e.size.toNat) := by
    intro n
    induction n with
    | zero =>
        intro _
        rw [Nat.zero_mul, Nat.zero_min]
        rfl
    | succ n ih =>
        intro hn
        have hlt : n < Chunking.count 4194304 e.size.toNat := by omega
        have hsmall : n < 2 ^ 64 := Nat.lt_trans hn e.chunkCount.toNat_lt
        have hbefore := (Chunking.lt_count_iff hpos).mp hlt
        rw [List.range_succ, List.map_append, List.map_append, List.flatten_append,
          ih (Nat.le_of_succ_le hn), List.map_singleton, List.map_singleton,
          List.flatten_singleton, chunkOf, UInt64.toNat_ofNat_of_lt' hsmall, Chunking.len, slice,
          Nat.min_eq_left (Nat.le_of_lt hbefore), Nat.add_sub_cancel_left, ← List.take_add]
        congr 1
        omega
  have hall := hprefix _ (Nat.le_refl _)
  have hle := Chunking.le_count_mul (n := e.size.toNat) hpos
  rw [hcount, Nat.min_eq_right hle, ← hcount] at hall
  exact hall

/-- **A file whose chunks are those of a content has that content**, as far as
its size says. -/
theorem fileContent_eq (hcount : e.chunkCount.toNat = Chunking.count 4194304 e.size.toNat)
    (h : ∀ k ∈ e.chunkIndices, decryptChunk C opened e k = .ok (chunkOf data e k)) :
    fileContent C opened e = .ok (data.take e.size.toNat) := by
  have hparts : e.chunkIndices.mapM (decryptChunk C opened e) =
      .ok (e.chunkIndices.map (chunkOf data e)) := by
    generalize e.chunkIndices = ks at h
    induction ks with
    | nil => rfl
    | cons k rest ih =>
        rw [List.mapM_cons, h k List.mem_cons_self, ok_bind,
          ih fun k' hk' => h k' (List.mem_cons_of_mem _ hk')]
        rfl
  rw [fileContent, hparts, ok_bind, flatten_chunkOf hcount]

end CipherFS.V2
