import CipherFS.Framework.Chunking
import CipherFS.Core.V2.Accepted
import CipherFS.Core.V2.AcceptedHeader
import CipherFS.Core.V2.Chunks

/-!
# The chunks tile the data region

For a header and an index that pass validation, reader and writer compute the
same range for every chunk, no arithmetic fails, and the ranges of all chunks of
all files tile the bytes between the index and the end of the file. The writes
of a pack therefore commute.
-/

namespace CipherFS.V2

open Result Tiling

variable {Key W : Type}

/-! ## One chunk -/

theorem encryptedFileSize_eq_ok {size chunks encrypted : UInt64} :
    encryptedFileSize size = .ok (chunks, encrypted) ↔
      chunks.toNat = Chunking.count 4194304 size.toNat ∧
      encrypted.toNat = size.toNat + 16 * Chunking.count 4194304 size.toNat := by
  have hlt := encrypted.toNat_lt
  unfold encryptedFileSize Chunking.count
  split
  · rename_i h
    subst h
    simp only [Except.ok.injEq, Prod.mk.injEq, ← UInt64.toNat_inj, UInt64.toNat_zero]
    omega
  · simp only [bind_eq_ok, ofOption_eq_ok, checkedAdd_eq_some_iff, checkedMul_eq_some_iff,
      Except.ok.injEq, Prod.mk.injEq]
    have hpad : (chunkSize - 1).toNat = 4194303 := rfl
    constructor
    · rintro ⟨padded, hp, overhead, ho, e, he, rfl, rfl⟩
      rw [UInt64.toNat_div, chunkSize_toNat, tagSize_toNat] at *
      omega
    · rintro ⟨hc, he⟩
      obtain ⟨padded, hp⟩ := exists_toNat_eq (n := size.toNat + (chunkSize - 1).toNat) (by omega)
      have hchunks : padded / chunkSize = chunks := by
        rw [← UInt64.toNat_inj, UInt64.toNat_div, chunkSize_toNat]
        omega
      obtain ⟨overhead, ho⟩ := exists_toNat_eq (n := chunks.toNat * tagSize.toNat) (by
        rw [tagSize_toNat]
        omega)
      rw [tagSize_toNat] at ho
      refine ⟨padded, hp, overhead, ?_, encrypted, ?_, hchunks, rfl⟩
      · rw [hchunks, tagSize_toNat, ho]
      · omega

/-- A file entry whose extent lies within the addressable positions. -/
structure FileFits (dataStart : UInt64) (e : Entry) : Prop where
  kind : e.kind = .file
  count : e.chunkCount.toNat = Chunking.count 4194304 e.size.toNat
  encrypted : e.encryptedSize.toNat = e.size.toNat + 16 * e.chunkCount.toNat
  fits : dataStart.toNat + e.dataOffset.toNat + e.encryptedSize.toNat < 2 ^ 64

/-- Where chunk `i` of an entry lies in the container file. -/
def chunkExtent (dataStart : UInt64) (e : Entry) (i : Nat) : Extent :=
  (dataStart.toNat + e.dataOffset.toNat + (Chunking.extent 4194304 16 e.size.toNat i).1,
    (Chunking.extent 4194304 16 e.size.toNat i).2)

namespace FileFits

variable {dataStart : UInt64} {e : Entry} {i : UInt64}

theorem mul_chunkSize_lt (h : FileFits dataStart e) (hi : i < e.chunkCount) :
    i.toNat * 4194304 < e.size.toNat := by
  rw [UInt64.lt_iff_toNat_lt, h.count] at hi
  exact (Chunking.lt_count_iff (by decide)).mp hi

/-- The subtraction that the source leaves unchecked. -/
theorem exists_remaining (h : FileFits dataStart e) (hi : i < e.chunkCount) :
    ∃ start remaining, checkedMul i chunkSize = some start ∧
      start.toNat = i.toNat * 4194304 ∧ checkedSub e.size start = some remaining ∧
      (min chunkSize remaining).toNat = Chunking.len 4194304 e.size.toNat i.toNat := by
  have hlt := h.mul_chunkSize_lt hi
  have hsize := e.size.toNat_lt
  obtain ⟨start, hstart, hs⟩ := exists_checkedMul (a := i) (b := chunkSize) (by
    rw [chunkSize_toNat]
    omega)
  rw [chunkSize_toNat] at hs
  obtain ⟨remaining, hremaining, hr⟩ := exists_checkedSub (a := e.size) (b := start) (by omega)
  refine ⟨start, remaining, hstart, hs, hremaining, ?_⟩
  rw [toNat_min, chunkSize_toNat, Chunking.len]
  omega

theorem extent_le (h : FileFits dataStart e) (hi : i < e.chunkCount) :
    i.toNat * (4194304 + 16) + (Chunking.extent 4194304 16 e.size.toNat i.toNat).2 ≤
      e.encryptedSize.toNat := by
  rw [UInt64.lt_iff_toNat_lt, h.count] at hi
  rw [h.encrypted, h.count]
  exact Chunking.extent_le (by decide) hi

theorem exists_position (h : FileFits dataStart e) (hi : i < e.chunkCount) :
    ∃ relative position, checkedMul i (chunkSize + tagSize) = some relative ∧
      (checkedAdd dataStart e.dataOffset).bind (checkedAdd · relative) = some position ∧
      position.toNat = (chunkExtent dataStart e i.toNat).1 := by
  have hle := h.extent_le hi
  have hfits := h.fits
  have hstep : (chunkSize + tagSize).toNat = 4194304 + 16 := rfl
  obtain ⟨relative, hrelative, hr⟩ := exists_checkedMul (a := i) (b := chunkSize + tagSize) (by
    rw [hstep]
    omega)
  rw [hstep] at hr
  obtain ⟨base, hbase, hb⟩ := exists_checkedAdd (a := dataStart) (b := e.dataOffset) (by omega)
  obtain ⟨position, hposition, hp⟩ := exists_checkedAdd (a := base) (b := relative) (by omega)
  refine ⟨relative, position, hrelative, ?_, ?_⟩
  · rw [hbase]
    exact hposition
  · simp only [chunkExtent, Chunking.extent]
    omega

/-- The reader's arithmetic succeeds and lands on the chunk's extent. -/
theorem chunkSpan_ok (h : FileFits dataStart e) (hi : i < e.chunkCount) :
    ∃ span, chunkSpan dataStart e i = .ok span ∧
      span.plainLen.toNat = Chunking.len 4194304 e.size.toNat i.toNat ∧
      span.position.toNat = (chunkExtent dataStart e i.toNat).1 ∧
      span.cipherLen.toNat = (chunkExtent dataStart e i.toNat).2 := by
  obtain ⟨start, remaining, hstart, -, hremaining, hlen⟩ := h.exists_remaining hi
  obtain ⟨relative, position, hrelative, hposition, hp⟩ := h.exists_position hi
  have hle := Chunking.len_le (c := 4194304) (n := e.size.toNat) i.toNat
  obtain ⟨cipherLen, hcipher, hc⟩ := exists_checkedAdd
    (a := min chunkSize remaining) (b := tagSize) (by
      rw [tagSize_toNat]
      omega)
  refine ⟨⟨min chunkSize remaining, cipherLen, position⟩, ?_, hlen, hp, ?_⟩
  · simp only [chunkSpan, bind_eq_ok, rejectIf_eq_ok, ofOption_eq_ok, ofSub_eq_ok]
    exact ⟨(), by simp [h.kind, UInt64.not_le, hi], start, hstart, remaining, hremaining,
      cipherLen, hcipher, relative, hrelative, position, hposition, rfl⟩
  · simp only [chunkExtent, Chunking.extent]
    rw [hc, tagSize_toNat, hlen]

/-- The writer's source range is the chunk's plaintext range. -/
theorem sourceSpan_ok (h : FileFits dataStart e) (hi : i < e.chunkCount) :
    ∃ off expected, sourceSpan e i = .ok (off, expected) ∧ off.toNat = i.toNat * 4194304 ∧
      expected.toNat = Chunking.len 4194304 e.size.toNat i.toNat := by
  obtain ⟨start, remaining, hstart, hs, hremaining, hlen⟩ := h.exists_remaining hi
  refine ⟨start, min chunkSize remaining, ?_, hs, hlen⟩
  simp only [sourceSpan, bind_eq_ok, ofOption_eq_ok, ofSub_eq_ok]
  exact ⟨start, hstart, remaining, hremaining, rfl⟩

/-- The writer's destination is the reader's position. -/
theorem chunkDestination_ok (h : FileFits dataStart e) (hi : i < e.chunkCount) :
    ∃ destination, chunkDestination dataStart e i = .ok destination ∧
      destination.toNat = (chunkExtent dataStart e i.toNat).1 := by
  obtain ⟨relative, position, hrelative, hposition, hp⟩ := h.exists_position hi
  refine ⟨position, ?_, hp⟩
  simp only [chunkDestination, bind_eq_ok, ofOption_eq_ok]
  exact ⟨relative, hrelative, hposition⟩

theorem verifyAmount_ok (h : FileFits dataStart e) (hi : i < e.chunkCount) :
    ∃ amount, verifyAmount e i = .ok amount ∧
      amount.toNat = Chunking.len 4194304 e.size.toNat i.toNat := by
  obtain ⟨start, remaining, hstart, -, hremaining, hlen⟩ := h.exists_remaining hi
  refine ⟨min chunkSize remaining, ?_, hlen⟩
  simp only [verifyAmount, bind_eq_ok, ofOption_eq_ok, ofSub_eq_ok]
  exact ⟨start, hstart, remaining, hremaining, rfl⟩

end FileFits

/-! ## All chunks -/

/-- Every file entry with every chunk number below its chunk count. -/
def chunkRefs (es : List Entry) : List (Entry × UInt64) :=
  (es.filter Entry.isFile).flatMap fun e =>
    (List.range e.chunkCount.toNat).map fun i => (e, UInt64.ofNat i)

/-- The range of the container file that `decrypt_chunk` reads. -/
def ChunkSpan.extent (s : ChunkSpan) : Extent := (s.position.toNat, s.cipherLen.toNat)

theorem mem_chunkRefs {es : List Entry} {e : Entry} {i : UInt64} :
    (e, i) ∈ chunkRefs es ↔ e ∈ es ∧ e.kind = .file ∧ i < e.chunkCount := by
  simp only [chunkRefs, List.mem_flatMap, List.mem_filter, Entry.isFile_iff, List.mem_map,
    List.mem_range, Prod.mk.injEq]
  constructor
  · rintro ⟨e, ⟨he, hk⟩, n, hn, rfl, rfl⟩
    have hlt := Nat.lt_trans hn e.chunkCount.toNat_lt
    exact ⟨he, hk, by rwa [UInt64.lt_iff_toNat_lt, UInt64.toNat_ofNat_of_lt' hlt]⟩
  · rintro ⟨he, hk, hi⟩
    exact ⟨e, ⟨he, hk⟩, i.toNat, UInt64.lt_iff_toNat_lt.mp hi, rfl, UInt64.ofNat_toNat⟩

/-- The file entries in the order of their data. -/
def filesByOffset (es : List Entry) : List Entry :=
  (es.filter Entry.isFile).mergeSort fun a b => a.dataOffset ≤ b.dataOffset

/-- The data range of a file entry. -/
def Entry.extent (e : Entry) : Extent := (e.dataOffset.toNat, e.encryptedSize.toNat)

/-- The ranges of all chunks, file by file in the order of the entries. -/
def chunkExtents (dataStart : UInt64) (es : List Entry) : List Extent :=
  (chunkRefs es).map fun r => chunkExtent dataStart r.1 r.2.toNat

theorem sortByOffset_fileExtents (es : List Entry) :
    sortByOffset (fileExtents es) =
      (filesByOffset es).map fun e => (e.dataOffset, e.encryptedSize, e.id) := by
  rw [sortByOffset, fileExtents, filesByOffset]
  symm
  apply List.map_mergeSort
  intro a _ b _
  rfl

theorem mem_filesByOffset {es : List Entry} {e : Entry} :
    e ∈ filesByOffset es ↔ e ∈ es ∧ e.kind = .file := by
  rw [filesByOffset, List.mem_mergeSort, List.mem_filter, Entry.isFile_iff]

theorem chunkExtents_perm (dataStart : UInt64) (es : List Entry) :
    (chunkExtents dataStart es).Perm ((filesByOffset es).flatMap fun e =>
      (List.range e.chunkCount.toNat).map (chunkExtent dataStart e)) := by
  have hrefs : chunkExtents dataStart es = (es.filter Entry.isFile).flatMap fun e =>
      (List.range e.chunkCount.toNat).map (chunkExtent dataStart e) := by
    rw [chunkExtents, chunkRefs, List.map_flatMap]
    refine List.flatMap_congr fun e _ => ?_
    rw [List.map_map]
    refine List.map_congr_left fun i hi => ?_
    have hlt := Nat.lt_trans (List.mem_range.mp hi) e.chunkCount.toNat_lt
    rw [Function.comp_apply, UInt64.toNat_ofNat_of_lt' hlt]
  rw [hrefs]
  exact (List.mergeSort_perm _ _).symm.flatMap_right _

namespace AcceptedIndex

variable {os : Platform} {header : Header W} {es : List Entry} {dataStart : UInt64}

theorem contiguous_files (h : AcceptedIndex os header es) :
    Contiguous 0 ((filesByOffset es).map Entry.extent) header.dataSize.toNat := by
  have hlayout := h.layout
  rw [sortByOffset_fileExtents, List.map_map] at hlayout
  exact hlayout

theorem fileFits (h : AcceptedIndex os header es)
    (hend : dataStart.toNat + header.dataSize.toNat < 2 ^ 64) {e : Entry} (he : e ∈ es)
    (hk : e.kind = .file) : FileFits dataStart e := by
  obtain ⟨-, hsize⟩ := (h.entries e he).file hk
  obtain ⟨hcount, henc⟩ := encryptedFileSize_eq_ok.mp hsize
  have hbounds := Contiguous.bounds h.contiguous_files e.extent
    (List.mem_map_of_mem (mem_filesByOffset.mpr ⟨he, hk⟩))
  simp only [Entry.extent] at hbounds
  exact ⟨hk, hcount, by rw [henc, hcount], by omega⟩

/-- **The chunks of all files tile the data region.** -/
theorem contiguous_chunks (h : AcceptedIndex os header es)
    (hend : dataStart.toNat + header.dataSize.toNat < 2 ^ 64) :
    Contiguous dataStart.toNat ((filesByOffset es).flatMap fun e =>
        (List.range e.chunkCount.toNat).map (chunkExtent dataStart e))
      (dataStart.toNat + header.dataSize.toNat) := by
  have hfiles := Contiguous.shift dataStart.toNat h.contiguous_files
  rw [List.map_map, Nat.add_zero] at hfiles
  refine contiguous_flatMap hfiles fun e he => ?_
  obtain ⟨hmem, hk⟩ := mem_filesByOffset.mp he
  have hfits := h.fileFits hend hmem hk
  have hchunks := Contiguous.shift (dataStart.toNat + e.dataOffset.toNat)
    (Chunking.contiguous_extents (c := 4194304) (t := 16) (n := e.size.toNat) (by decide))
  rw [List.map_map, ← hfits.count, ← hfits.encrypted, Nat.add_zero] at hchunks
  exact hchunks

theorem chunkExtents_apart (h : AcceptedIndex os header es)
    (hend : dataStart.toNat + header.dataSize.toNat < 2 ^ 64) :
    (chunkExtents dataStart es).Pairwise Apart :=
  ((chunkExtents_perm dataStart es).pairwise_iff apart_symm).mpr
    (Contiguous.pairwise_apart (h.contiguous_chunks hend))

theorem chunkExtents_countP (h : AcceptedIndex os header es)
    (hend : dataStart.toNat + header.dataSize.toNat < 2 ^ 64) (p : ℕ) :
    (chunkExtents dataStart es).countP (Covers · p) =
      if dataStart.toNat ≤ p ∧ p < dataStart.toNat + header.dataSize.toNat then 1 else 0 := by
  rw [(chunkExtents_perm dataStart es).countP_eq]
  exact Contiguous.countP_covers (h.contiguous_chunks hend)

theorem chunkExtents_covered (h : AcceptedIndex os header es)
    (hend : dataStart.toNat + header.dataSize.toNat < 2 ^ 64) {p : ℕ} :
    (∃ x ∈ chunkExtents dataStart es, Covers x p) ↔
      dataStart.toNat ≤ p ∧ p < dataStart.toNat + header.dataSize.toNat := by
  simp only [(chunkExtents_perm dataStart es).mem_iff]
  exact Contiguous.covered (h.contiguous_chunks hend)

/-- The plaintext sizes of the files fit one word together. -/
theorem sum_sizes_le (h : AcceptedIndex os header es) :
    (((es.filter Entry.isFile).map Entry.size).map UInt64.toNat).sum ≤
      header.dataSize.toNat := by
  have hsum := Contiguous.sum h.contiguous_files
  have hperm : ((filesByOffset es).map fun e => e.size.toNat).Perm
      ((es.filter Entry.isFile).map fun e => e.size.toNat) :=
    (List.mergeSort_perm _ _).map _
  rw [List.map_map, Nat.zero_add] at hsum
  rw [List.map_map, ← hsum]
  refine hperm.symm.sum_eq.trans_le (List.sum_le_sum fun e he => ?_)
  obtain ⟨hmem, hk⟩ := mem_filesByOffset.mp he
  obtain ⟨-, henc⟩ := encryptedFileSize_eq_ok.mp ((h.entries e hmem).file hk).2
  simp only [Function.comp_apply, Entry.extent]
  omega

/-- The entries in any iteration order are the entries. -/
theorem values_indexOf_perm (h : AcceptedIndex os header es) (ω : IterOrder) :
    (ω.arrange (indexOf es).entries.values).Perm es := by
  have hvalues : (indexOf es).entries.values = es.reverse := scanOf_values h.ids
  rw [hvalues]
  exact (ω.perm _).trans es.reverse_perm

/-- Verification and extraction agree on the total, which is the sum of the sizes. -/
theorem totals_ok (h : AcceptedIndex os header es) (ω : IterOrder) :
    ∃ total, verifyTotal ω (indexOf es) = .ok total ∧
      extractionTotal ω (indexOf es) = .ok total ∧
      total.toNat = (((es.filter Entry.isFile).map Entry.size).map UInt64.toNat).sum := by
  have hlt := Nat.lt_of_le_of_lt h.sum_sizes_le header.dataSize.toNat_lt
  obtain ⟨total, htotal⟩ := exists_toNat_eq hlt
  have hfiles : ((ω.arrange (indexOf es).entries.values).filter (·.kind = .file)).Perm
      (es.filter Entry.isFile) := (h.values_indexOf_perm ω).filter _
  refine ⟨total, ?_, ?_, htotal⟩
  · rw [verifyTotal, ofOption_eq_ok, checkedSum_eq_some_iff, htotal]
    exact ((((List.mergeSort_perm _ _).trans hfiles).map _).map _).sum_eq.symm
  · rw [extractionTotal, ofOption_eq_ok, checkedSum_eq_some_iff, htotal]
    exact ((hfiles.map _).map _).sum_eq.symm

end AcceptedIndex

/-! ## Reader and writer together -/

theorem dataStartOf_ok {header : Header W} (h : HeaderAccepted header) :
    ∃ dataStart, dataStartOf header = .ok dataStart ∧
      dataStart.toNat = headerSize + header.indexSize.toNat := by
  have hconst : (UInt64.ofNat headerSize).toNat = headerSize := rfl
  have hle : header.indexSize.toNat ≤ 536870912 := h.indexSize_le
  have hsize : headerSize = 4096 := rfl
  obtain ⟨dataStart, hstart, hs⟩ := exists_checkedAdd
    (a := UInt64.ofNat headerSize) (b := header.indexSize) (by
      rw [hconst]
      omega)
  exact ⟨dataStart, ofOption_eq_ok.mpr hstart, by rw [hs, hconst]⟩

theorem writeExtent_of_encryptChunk {C : Crypto Key W} (hC : C.Correct) {header : Header W}
    {key : Key} {dataStart : UInt64} {e : Entry} {i : UInt64} {plain : Bytes} {w : FileWrite}
    (hfits : FileFits dataStart e) (hi : i < e.chunkCount)
    (hplain : plain.length = Chunking.len 4194304 e.size.toNat i.toNat)
    (hw : encryptChunk C header key dataStart e i plain = .ok w) :
    writeExtent w = chunkExtent dataStart e i.toNat := by
  obtain ⟨destination, hdest, hd⟩ := hfits.chunkDestination_ok hi
  simp only [encryptChunk, encryptAead, bind_eq_ok, ofOption_eq_ok] at hw
  obtain ⟨encrypted, henc, dest, hdest', heq⟩ := hw
  rw [hdest] at hdest'
  injection hdest' with hdest'
  injection heq with heq
  subst hdest' heq
  have hlen := hC.length_encrypt henc
  refine Prod.ext hd ?_
  simp only [writeExtent, chunkExtent, Chunking.extent]
  rw [hlen, hplain]

/-- **Every byte of the data region belongs to one chunk, for reader and writer alike.** -/
theorem chunks_tile_container {ω : IterOrder} {os : Platform} {header : Header W}
    {index : Index} {v : ValidatedIndex} {fileLen : UInt64}
    (hheader : validateHeaderBasic header (some fileLen) = .ok ())
    (hindex : validateIndex ω os header index = .ok v) :
    ∃ dataStart spans,
      dataStartOf header = .ok dataStart ∧
      (chunkRefs index.entries).mapM (fun r => chunkSpan dataStart r.1 r.2) = .ok spans ∧
      (spans.map ChunkSpan.extent).Pairwise Apart ∧
      (∀ p, (∃ s ∈ spans, Covers s.extent p) ↔
        headerSize + header.indexSize.toNat ≤ p ∧ p < fileLen.toNat) ∧
      (∀ ω', ∃ total, verifyTotal ω' v = .ok total ∧ extractionTotal ω' v = .ok total) ∧
      (∀ e ∈ index.entries, e.kind = .file → ∀ i < e.chunkCount,
        (∃ amount, verifyAmount e i = .ok amount) ∧
        ∃ span off, chunkSpan dataStart e i = .ok span ∧
          sourceSpan e i = .ok (off, span.plainLen) ∧
          chunkDestination dataStart e i = .ok span.position) ∧
      ∀ (C : Crypto Key W) (key : Entry → Key) (plain : Entry → UInt64 → Bytes)
        (ws : List FileWrite), C.Correct →
        (∀ e ∈ index.entries, e.kind = .file → ∀ i < e.chunkCount, ∀ off expected,
          sourceSpan e i = .ok (off, expected) → (plain e i).length = expected.toNat) →
        (chunkRefs index.entries).mapM (fun r =>
          encryptChunk C header (key r.1) dataStart r.1 r.2 (plain r.1 r.2)) = .ok ws →
        ws.map writeExtent = spans.map ChunkSpan.extent ∧
        (∀ ws', ws.Perm ws' → ∀ file, applyWrites file ws' = applyWrites file ws) ∧
        ∀ p, headerSize + header.indexSize.toNat ≤ p → p < fileLen.toNat →
          (ws.map writeExtent).countP (Covers · p) = 1 := by
  obtain ⟨hacc, hlength⟩ := validateHeaderBasic_eq_ok.mp hheader
  have hlen := checkContainerLength_eq_ok.mp (hlength fileLen rfl)
  obtain ⟨hidx, rfl⟩ := validateIndex_eq_ok.mp hindex
  obtain ⟨dataStart, hstart, hs⟩ := dataStartOf_ok hacc
  have hend : dataStart.toNat + header.dataSize.toNat = fileLen.toNat := by omega
  have hlt : dataStart.toNat + header.dataSize.toNat < 2 ^ 64 := hend ▸ fileLen.toNat_lt
  have hfits : ∀ r ∈ chunkRefs index.entries, FileFits dataStart r.1 ∧ r.2 < r.1.chunkCount := by
    rintro ⟨e, i⟩ hr
    obtain ⟨he, hk, hi⟩ := mem_chunkRefs.mp hr
    exact ⟨hidx.fileFits hlt he hk, hi⟩
  obtain ⟨spans, hspans⟩ := exists_mapM_eq_ok
    (l := chunkRefs index.entries) (f := fun r => chunkSpan dataStart r.1 r.2) (by
      intro r hr
      obtain ⟨span, hspan, -⟩ := (hfits r hr).1.chunkSpan_ok (hfits r hr).2
      exact ⟨span, hspan⟩)
  have hextents : spans.map ChunkSpan.extent = chunkExtents dataStart index.entries := by
    refine map_eq_of_mapM_eq_ok hspans fun r hr span hspan => ?_
    obtain ⟨span', hspan', -, hpos, hcipher⟩ := (hfits r hr).1.chunkSpan_ok (hfits r hr).2
    rw [hspan'] at hspan
    injection hspan with hspan
    subst hspan
    exact Prod.ext hpos hcipher
  refine ⟨dataStart, spans, hstart, hspans, ?_, ?_, ?_, ?_, ?_⟩
  · rw [hextents]
    exact hidx.chunkExtents_apart hlt
  · intro p
    have hcov := hidx.chunkExtents_covered hlt (p := p)
    rw [hend, hs, ← hextents] at hcov
    simpa only [List.mem_map, exists_exists_and_eq_and] using hcov
  · intro ω'
    obtain ⟨total, hv, hx, -⟩ := hidx.totals_ok ω'
    exact ⟨total, hv, hx⟩
  · intro e he hk i hi
    have hfit := hidx.fileFits hlt he hk
    obtain ⟨amount, hamount, -⟩ := hfit.verifyAmount_ok hi
    obtain ⟨span, hspan, hplain, hpos, -⟩ := hfit.chunkSpan_ok hi
    obtain ⟨off, expected, hsource, -, hexp⟩ := hfit.sourceSpan_ok hi
    obtain ⟨destination, hdest, hd⟩ := hfit.chunkDestination_ok hi
    obtain rfl : expected = span.plainLen := UInt64.toNat_inj.mp (hexp.trans hplain.symm)
    obtain rfl : destination = span.position := UInt64.toNat_inj.mp (hd.trans hpos.symm)
    exact ⟨⟨amount, hamount⟩, span, off, hspan, hsource, hdest⟩
  · intro C key plain ws hC hplain hws
    have hwrites : ws.map writeExtent = chunkExtents dataStart index.entries := by
      refine map_eq_of_mapM_eq_ok hws fun r hr w hw => ?_
      obtain ⟨he, hk, hi⟩ := mem_chunkRefs.mp hr
      obtain ⟨off, expected, hsource, -, hexp⟩ := (hfits r hr).1.sourceSpan_ok hi
      have hlen := hplain r.1 he hk r.2 hi off expected hsource
      exact writeExtent_of_encryptChunk hC (hfits r hr).1 hi (hlen.trans hexp) hw
    refine ⟨hwrites.trans hextents.symm, ?_, ?_⟩
    · intro ws' hperm file
      refine (applyWrites_perm hperm ?_ file).symm
      rw [hwrites]
      exact hidx.chunkExtents_apart hlt
    · intro p hlo hhi
      rw [hwrites, hidx.chunkExtents_countP hlt, if_pos (by omega)]

/-! ## A container with one small file in a subdirectory -/

def sampleHeader (w : W) : Header W where
  magic := magicBytes
  version := version
  headerSize := 4096
  containerId := ByteArr.zero 16
  chunkSize := 4194304
  indexSize := 100
  dataSize := 21
  entryCount := 3
  indexNonce := ByteArr.zero 12
  slot0 := ⟨1, ByteArr.zero 16, .default, ByteArr.zero 12, w⟩
  slot1 := ⟨0, ByteArr.zero 16, .default, ByteArr.zero 12, w⟩
  duress := ⟨false, ByteArr.zero 16, .default, ByteArr.zero 12, w⟩

def sampleRoot : Entry := ⟨1, 1, "", 0, .directory, ByteArr.zero 16, 0, 0, 0, 0⟩
def sampleDirectory : Entry := ⟨2, 1, "docs", 1, .directory, ByteArr.zero 16, 0, 0, 0, 0⟩
def sampleFile : Entry := ⟨3, 2, "note", 2, .file, ⟨List.replicate 16 1, rfl⟩, 5, 0, 21, 1⟩

def sampleIndex : Index := ⟨[sampleRoot, sampleDirectory, sampleFile]⟩

theorem sampleHeader_accepted (w : W) :
    validateHeaderBasic (sampleHeader w) (some 4217) = .ok () := by
  refine validateHeaderBasic_eq_ok.mpr ⟨⟨rfl, rfl, rfl, rfl, ?_, ?_, ?_, ?_, ?_⟩, ?_⟩
  · exact Nat.le_of_ble_eq_true rfl
  · exact Nat.le_of_ble_eq_true rfl
  · exact Nat.le_of_ble_eq_true rfl
  · intro s hs _
    obtain ⟨i, rfl⟩ := Header.mem_slots.mp hs
    cases i <;> rfl
  · intro h
    cases h
  · rintro len ⟨⟩
    exact checkContainerLength_eq_ok.mpr rfl

theorem sampleIndex_accepted (w : W) :
    AcceptedIndex .unix (sampleHeader w) sampleIndex.entries where
  count := rfl
  count_le := by decide
  entries := by
    have hname : validateName .unix "docs" = .ok () ∧ validateName .unix "note" = .ok () := by
      decide
    intro e he
    simp only [sampleIndex, List.mem_cons, List.not_mem_nil, or_false] at he
    rcases he with rfl | rfl | rfl
    · exact ⟨by decide, by decide, by decide, by decide, by decide⟩
    · exact ⟨by decide, by decide, hname.1, by decide, by decide⟩
    · exact ⟨by decide, by decide, hname.2, by decide, by decide⟩
  ids := by decide
  fileIds := by decide
  root := ⟨sampleRoot, by simp [sampleIndex], rfl⟩
  parents := by
    intro e he hid
    simp only [sampleIndex, List.mem_cons, List.not_mem_nil, or_false] at he
    rcases he with rfl | rfl | rfl
    · exact absurd rfl hid
    · exact ⟨sampleRoot, by simp [sampleIndex], rfl, rfl, rfl⟩
    · exact ⟨sampleDirectory, by simp [sampleIndex], rfl, rfl, rfl⟩
  siblings := by decide
  layout := by
    have hfiles : fileExtents sampleIndex.entries = [(0, 21, 3)] := rfl
    rw [hfiles, sortByOffset, List.mergeSort_singleton]
    exact ⟨rfl, rfl⟩

theorem chunks_tile_container_sample :
    ∃ dataStart spans, dataStartOf (sampleHeader ()) = .ok dataStart ∧
      (chunkRefs sampleIndex.entries).mapM (fun r => chunkSpan dataStart r.1 r.2) = .ok spans ∧
      ∀ p, (∃ s ∈ spans, Covers s.extent p) ↔ 4196 ≤ p ∧ p < 4217 := by
  obtain ⟨dataStart, spans, hstart, hspans, -, hcover, -⟩ :=
    @chunks_tile_container Unit Unit .stored .unix (sampleHeader ()) sampleIndex _ 4217
      (sampleHeader_accepted ()) (validateIndex_eq_ok.mpr ⟨sampleIndex_accepted (), rfl⟩)
  exact ⟨dataStart, spans, hstart, hspans, hcover⟩

end CipherFS.V2
