import CipherFS.Core.ReadOnlyFs.Cache

/-!
# Range reads

`ReadOnlyV2Fs::read` walks the chunks that a range touches and joins what it
needs of each. Other calls may change the cache between two of its probes, so
the cache found at each probe is a parameter.
-/

namespace CipherFS.ReadOnlyFs

open V2

variable {Key W : Type} (C : Crypto Key W)

/-- What `load_chunk` returns when it finds `seen` at its probe. -/
def loadChunk (opened : OpenedContainer W) (seen : Cache) (entry : Entry)
    (chunkIndex : UInt64) : FsResult Bytes :=
  match (seen.probe (loadKey entry chunkIndex)).1 with
  | some value => .ok value
  | none =>
    match (decryptChunk C opened entry chunkIndex).context
        s!"entry {entry.id} chunk {chunkIndex} failed" with
    | .ok value => .ok value
    | .error e => .error (.integrity e)

/-- The body of the chunk loop of `ReadOnlyV2Fs::read`. -/
def readStep (opened : OpenedContainer W) (seen : UInt64 → Cache) (entry : Entry)
    (offset readLen : UInt64) (output : Bytes) (chunkIndex : UInt64) : FsResult Bytes := do
  let chunk ← loadChunk C opened (seen chunkIndex) entry chunkIndex
  let chunkStart := chunkIndex * chunkSize
  let skip := (saturatingSub offset chunkStart).toNat
  if skip > chunk.length then
    .error (.integrity ⟨.message "Chunk range is outside decrypted data", []⟩)
  else
    let remaining := readLen.toNat - output.length
    let take := min (chunk.length - skip) remaining
    .ok (output ++ (chunk.drop skip).take take)

/-- `start_chunk..=end_chunk`. -/
def chunkRange (startChunk endChunk : UInt64) : List UInt64 :=
  (List.range' startChunk.toNat (endChunk.toNat + 1 - startChunk.toNat)).map UInt64.ofNat

/-- `ReadOnlyV2Fs::read`. `seen i` is the cache at the probe for chunk `i`. -/
def read (opened : OpenedContainer W) (seen : UInt64 → Cache) (id offset : UInt64)
    (size : UInt32) : FsResult Bytes := do
  let entry ← metadata opened.index id
  if entry.kind ≠ .file then .error (.semantic .isDirectory)
  else if offset ≥ entry.size then .ok []
  else
    let readLen := min size.toUInt64 (entry.size - offset)
    match (checkedAdd offset readLen).bind (checkedSub · 1) with
    | none => .error (.integrity ⟨.message "Read range overflow", []⟩)
    | some lastByte =>
      let output ← (chunkRange (offset / chunkSize) (lastByte / chunkSize)).foldlM
        (readStep C opened seen entry offset readLen) []
      if output.length ≠ readLen.toNat then
        .error (.integrity ⟨.message "Read returned an incomplete plaintext range", []⟩)
      else .ok output

/-! ## One chunk -/

/-- The chunks of a file joined. -/
def plaintext (chunk : UInt64 → Bytes) (entry : Entry) : Bytes :=
  (List.range entry.chunkCount.toNat).flatMap fun i => chunk (UInt64.ofNat i)

variable {C} {opened : OpenedContainer W} {e : Entry} {chunk : UInt64 → Bytes}

/-- A chunk that decrypts has the length its place demands, and belongs to a file. -/
theorem length_of_decryptChunk {i : UInt64} {data : Bytes}
    (h : decryptChunk C opened e i = .ok data) :
    e.kind = .file ∧ data.length = Chunking.len 4194304 e.size.toNat i.toNat := by
  simp only [decryptChunk, chunkSpan, Result.bind_eq_ok, Result.rejectIf_eq_ok,
    Result.ofOption_eq_ok, Result.ofSub_eq_ok, checkedMul_eq_some_iff, checkedSub_eq_some_iff,
    not_or, ne_eq, not_not] at h
  obtain ⟨span, ⟨_, ⟨hk, -⟩, start, hstart, remaining, hrem, _, -, _, -, _, -, hspan⟩, _, -, _, -,
    text, -, _, hlen, htext⟩ := h
  injection hspan with hspan
  injection htext with htext
  rw [chunkSize_toNat] at hstart
  refine ⟨hk, ?_⟩
  rw [← htext, hlen, ← hspan, toNat_min, chunkSize_toNat, Chunking.len]
  omega

/-- **A hit and a miss return the same bytes.** -/
theorem loadChunk_ok {os : Platform} {es : List Entry} (h : AcceptedIndex os opened.header es)
    (he : e ∈ es) (hk : e.kind = .file) {i : UInt64} {data : Bytes}
    (hdec : decryptChunk C opened e i = .ok data) {maxBytes : Nat} {seen : Cache}
    (hseen : ReachableCache (decryptChunk C opened) es maxBytes seen) :
    loadChunk C opened seen e i = .ok data := by
  unfold loadChunk Cache.probe
  cases hlook : seen.values.lookup (loadKey e i) with
  | none => simp [hdec, Result.context]
  | some value =>
      obtain ⟨e', he', hid, hdec'⟩ := hseen.holds (loadKey e i) value hlook
      obtain rfl := h.eq_of_fileId_eq he' he (length_of_decryptChunk hdec').1 hk hid
      have hvalue : Except.ok (ε := Error) value = .ok data := hdec'.symm.trans hdec
      rw [Except.ok.inj hvalue]

/-! ## The loop -/

/-- A file all of whose chunks load; `c` is the chunk size. -/
structure Readable (C : Crypto Key W) (opened : OpenedContainer W) (seen : UInt64 → Cache)
    (e : Entry) (chunk : UInt64 → Bytes) (c : ℕ) : Prop where
  chunkSize : chunkSize.toNat = c
  chunkSize_pos : 0 < c
  count : e.chunkCount.toNat = Chunking.count c e.size.toNat
  load : ∀ i < e.chunkCount, loadChunk C opened (seen i) e i = .ok (chunk i)
  length : ∀ i < e.chunkCount, (chunk i).length = Chunking.len c e.size.toNat i.toNat

namespace Readable

variable {seen : UInt64 → Cache} {offset readLen i : UInt64} {c : ℕ}

theorem length_ofNat (h : Readable C opened seen e chunk c) {n : ℕ}
    (hn : n < Chunking.count c e.size.toNat) :
    (chunk (UInt64.ofNat n)).length = Chunking.len c e.size.toNat n := by
  rw [← h.count] at hn
  have hlt := Nat.lt_trans hn e.chunkCount.toNat_lt
  have hnat : (UInt64.ofNat n).toNat = n := UInt64.toNat_ofNat_of_lt' hlt
  rw [h.length _ (by rwa [UInt64.lt_iff_toNat_lt, hnat]), hnat]

theorem length_plaintext (h : Readable C opened seen e chunk c) :
    (plaintext chunk e).length = e.size.toNat := by
  rw [plaintext, h.count, Chunking.length_flatMap_range h.chunkSize_pos
    (fun n hn => h.length_ofNat hn) _ (Nat.le_refl _)]
  exact Nat.min_eq_right (Chunking.le_count_mul h.chunkSize_pos)

theorem chunk_eq_slice (h : Readable C opened seen e chunk c) (hi : i < e.chunkCount) :
    chunk i = slice (plaintext chunk e) (i.toNat * c) ((i.toNat + 1) * c) := by
  rw [UInt64.lt_iff_toNat_lt] at hi
  rw [plaintext, h.count, Chunking.slice_flatMap_range h.chunkSize_pos
    (fun n hn => h.length_ofNat hn) _ (Nat.le_refl _) (h.count ▸ hi), UInt64.ofNat_toNat]

/-- One iteration extends the output to the end of its chunk or of the range. -/
theorem readStep_ok (h : Readable C opened seen e chunk c)
    (hrange : offset.toNat + readLen.toNat ≤ e.size.toNat)
    (hi : i.toNat * c < offset.toNat + readLen.toNat)
    (hfirst : offset.toNat < (i.toNat + 1) * c) :
    readStep C opened seen e offset readLen
        (slice (plaintext chunk e) offset.toNat (i.toNat * c)) i =
      .ok (slice (plaintext chunk e) offset.toNat
        (min ((i.toNat + 1) * c) (offset.toNat + readLen.toNat))) := by
  have hcount : i < e.chunkCount := by
    rw [UInt64.lt_iff_toNat_lt, h.count, Chunking.lt_count_iff h.chunkSize_pos]
    omega
  have hsize := e.size.toNat_lt
  have hstart : (i * V2.chunkSize).toNat = i.toNat * c := by
    rw [UInt64.toNat_mul, h.chunkSize, Nat.mod_eq_of_lt (by omega)]
  have hlen := h.length i hcount
  have hskip : ¬offset.toNat - i.toNat * c > (chunk i).length := by
    rw [Nat.add_mul, Nat.one_mul] at hfirst
    rw [hlen, Chunking.len]
    omega
  simp only [readStep, h.load i hcount, Result.ok_bind, toNat_saturatingSub, hstart]
  rw [if_neg hskip, hlen, h.chunk_eq_slice hcount,
    Chunking.slice_append_chunk h.length_plaintext hrange hi]

/-- After `k` chunks the output reaches to the start of the next one. -/
def Reached (P : Bytes) (offset readLen : UInt64) (c : ℕ) (done : List UInt64)
    (output : Bytes) : Prop :=
  ∃ k, done = (List.range' (offset.toNat / c) k).map UInt64.ofNat ∧
    output = slice P offset.toNat
      (min ((offset.toNat / c + k) * c) (offset.toNat + readLen.toNat))

/-- The next element of a range cut after `k` elements. -/
theorem eq_of_range'_append {s m k : ℕ} {x : UInt64} {rest : List UInt64}
    (h : (List.range' s m).map UInt64.ofNat =
      (List.range' s k).map UInt64.ofNat ++ x :: rest) : k < m ∧ x = UInt64.ofNat (s + k) := by
  have hlt : k < m := by
    have hlen := congrArg List.length h
    simp only [List.length_map, List.length_range', List.length_append,
      List.length_cons] at hlen
    omega
  have hget := congrArg (fun l => l[k]?) h
  simp only [List.getElem?_map, List.getElem?_range', hlt, List.getElem?_append_right,
    List.length_map, List.length_range', Nat.le_refl, Nat.sub_self, List.getElem?_cons_zero,
    Option.map_some, Nat.one_mul] at hget
  exact ⟨hlt, (Option.some.inj hget).symm⟩

/-- The loop puts out the range. -/
theorem foldlM_readStep_ok (h : Readable C opened seen e chunk c) {last : UInt64}
    (hrange : offset.toNat + readLen.toNat ≤ e.size.toNat)
    (hlast : last.toNat + 1 = offset.toNat + readLen.toNat) :
    (chunkRange (offset / V2.chunkSize) (last / V2.chunkSize)).foldlM
        (readStep C opened seen e offset readLen) [] =
      .ok (slice (plaintext chunk e) offset.toNat (offset.toNat + readLen.toNat)) := by
  have hpos := h.chunkSize_pos
  have hfirst : (offset / V2.chunkSize).toNat = offset.toNat / c := by
    rw [UInt64.toNat_div, h.chunkSize]
  have hend : (last / V2.chunkSize).toNat = last.toNat / c := by
    rw [UInt64.toNat_div, h.chunkSize]
  have hle : offset.toNat / c * c ≤ offset.toNat := Nat.div_mul_le_self _ _
  have hnext (n : ℕ) : n < (n / c + 1) * c := by
    rw [Nat.mul_comm]
    exact Nat.lt_mul_div_succ n hpos
  rw [chunkRange, hfirst, hend]
  obtain ⟨output, hloop, k, hk, hout⟩ := Result.foldlM_ok
    (I := Reached (plaintext chunk e) offset readLen c)
    (f := readStep C opened seen e offset readLen) (s := [])
    (l := (List.range' (offset.toNat / c)
      (last.toNat / c + 1 - offset.toNat / c)).map UInt64.ofNat)
    ⟨0, rfl, by rw [Nat.add_zero, slice_eq_nil (by omega)]⟩ (by
      rintro done i rest output hsplit ⟨k, rfl, rfl⟩
      obtain ⟨hk, rfl⟩ := eq_of_range'_append hsplit
      have hquot : last.toNat / c ≤ last.toNat := Nat.div_le_self _ _
      have hword := last.toNat_lt
      have hnat : (UInt64.ofNat (offset.toNat / c + k)).toNat = offset.toNat / c + k :=
        UInt64.toNat_ofNat_of_lt' (Nat.lt_of_le_of_lt (by omega) hword)
      have hbelow : (offset.toNat / c + k) * c ≤ last.toNat :=
        (Nat.mul_le_mul_right c (by omega)).trans (Nat.div_mul_le_self last.toNat c)
      have habove : offset.toNat < (offset.toNat / c + k + 1) * c :=
        (hnext _).trans_le (Nat.mul_le_mul_right c (by omega))
      have hstep := h.readStep_ok (i := UInt64.ofNat (offset.toNat / c + k)) hrange
        (by rw [hnat]; omega) (by rw [hnat]; exact habove)
      rw [hnat] at hstep
      rw [Nat.min_eq_left (by omega)]
      refine ⟨_, hstep, k + 1, ?_, by rw [Nat.add_assoc]⟩
      rw [List.range'_concat, List.map_append, Nat.one_mul]
      rfl)
  have hlen := congrArg List.length hk
  rw [List.length_map, List.length_map, List.length_range', List.length_range'] at hlen
  have hreach : last.toNat < (offset.toNat / c + k) * c :=
    (hnext _).trans_le (Nat.mul_le_mul_right c (by omega))
  rw [hloop, hout, Nat.min_eq_right (by omega)]

/-- A range that starts inside the file is read unless it ends before its first byte. -/
theorem read_range (h : Readable C opened seen e chunk c) {size : UInt32}
    (hmeta : metadata opened.index e.id = .ok e) (hk : e.kind = .file)
    (hoff : offset.toNat < e.size.toNat) :
    read C opened seen e.id offset size =
      if offset.toNat + size.toNat = 0 then
        .error (.integrity ⟨.message "Read range overflow", []⟩)
      else .ok (slice (plaintext chunk e) offset.toNat
        (min (offset.toNat + size.toNat) e.size.toNat)) := by
  have hlen : (min size.toUInt64 (e.size - offset)).toNat =
      min size.toNat (e.size.toNat - offset.toNat) := by
    rw [toNat_min, UInt32.toNat_toUInt64, toNat_sub_of_toNat_le (Nat.le_of_lt hoff)]
  have hword := e.size.toNat_lt
  have hnot : ¬offset ≥ e.size := by
    rw [ge_iff_le, UInt64.le_iff_toNat_le]
    omega
  rw [read, hmeta, Result.ok_bind, if_neg (by simp [hk]), if_neg hnot]
  generalize min size.toUInt64 (e.size - offset) = readLen at hlen
  obtain ⟨stop, hstop, hs⟩ := exists_checkedAdd (a := offset) (b := readLen) (by omega)
  have hone : (1 : UInt64).toNat = 1 := rfl
  simp only [hstop, Option.bind_some]
  split_ifs with hzero
  · have hsub : checkedSub stop 1 = none := by
      rw [checkedSub, if_neg (by omega)]
    rw [hsub]
  · obtain ⟨last, hlast, hl⟩ := exists_checkedSub (a := stop) (b := 1) (by omega)
    simp only [hlast]
    rw [h.foldlM_readStep_ok (by omega) (by omega), Result.ok_bind, if_neg]
    · congr 2
      omega
    · rw [length_slice, h.length_plaintext]
      omega

end Readable

/-- **Reads return their range, except the empty read at the start of a file
that is not empty.** -/
theorem read_eq_slice_iff {ω : IterOrder} {os : Platform} {index : Index} {maxBytes : Nat}
    {seen : UInt64 → Cache} {offset : UInt64} {size : UInt32}
    (hindex : validateIndex ω os opened.header index = .ok opened.index)
    (he : e ∈ index.entries) (hk : e.kind = .file)
    (hchunk : ∀ i < e.chunkCount, decryptChunk C opened e i = .ok (chunk i))
    (hseen : ∀ i, ReachableCache (decryptChunk C opened) index.entries maxBytes (seen i)) :
    read C opened seen e.id offset size =
        .ok (slice (plaintext chunk e) (min offset.toNat (plaintext chunk e).length)
          (min (offset.toNat + size.toNat) (plaintext chunk e).length)) ↔
      ¬(offset = 0 ∧ size = 0 ∧ e.size ≠ 0) := by
  obtain ⟨hacc, hv⟩ := validateIndex_eq_ok.mp hindex
  have hmeta : metadata opened.index e.id = .ok e := by
    rw [hv]
    exact metadata_eq_ok.mpr (hacc.lookup_of_mem he)
  obtain ⟨hcount, -⟩ := encryptedFileSize_eq_ok.mp ((hacc.entries e he).file hk).2
  have hread : Readable C opened seen e chunk 4194304 :=
    ⟨rfl, by decide, hcount, fun i hi => loadChunk_ok hacc he hk (hchunk i hi) (hseen i),
      fun i hi => (length_of_decryptChunk (hchunk i hi)).2⟩
  rw [hread.length_plaintext]
  have hzero : offset = 0 ∧ size = 0 ∧ e.size ≠ 0 ↔
      offset.toNat = 0 ∧ size.toNat = 0 ∧ e.size.toNat ≠ 0 := by
    simp only [← UInt64.toNat_inj, ← UInt32.toNat_inj, ne_eq, UInt64.toNat_zero,
      UInt32.toNat_zero]
  rw [hzero]
  by_cases hoff : offset.toNat < e.size.toNat
  · rw [hread.read_range hmeta hk hoff, Nat.min_eq_left (Nat.le_of_lt hoff)]
    split_ifs with hstart
    · simp only [false_iff, not_not]
      omega
    · simp only [true_iff]
      omega
  · have hge : offset ≥ e.size := by
      rw [ge_iff_le, UInt64.le_iff_toNat_le]
      omega
    rw [read, hmeta, Result.ok_bind, if_neg (by simp [hk]), if_pos hge, slice_eq_nil (by omega)]
    simp only [true_iff]
    omega

/-- The sample container opened, its file holding `hello`. -/
def sampleOpened : OpenedContainer (ByteArr 48) where
  file := setLen [] 4196 ++ ([104, 101, 108, 108, 111] ++ List.replicate 16 0)
  header := sampleHeader (ByteArr.zero 48)
  index := indexOf sampleIndex.entries
  dek := ByteArr.zero 32
  dataStart := 4196

theorem decryptChunk_sampleOpened :
    decryptChunk clearCrypto sampleOpened sampleFile 0 = .ok [104, 101, 108, 108, 111] := by
  have hspan : chunkSpan sampleOpened.dataStart sampleFile 0 = .ok ⟨5, 21, 4196⟩ := by decide
  have hread : readExactAt sampleOpened.file 4196 21 =
      .ok ([104, 101, 108, 108, 111] ++ List.replicate 16 0) := by
    have hlen : sampleOpened.file.length = 4217 := by
      rw [sampleOpened, List.length_append, length_setLen]
      rfl
    have hpos : (4196 : UInt64).toNat + (21 : UInt64).toNat = 4217 := rfl
    rw [readExactAt_eq_ok, readAt_eq_some_slice (by omega), sampleOpened,
      slice_append_right (by rw [length_setLen]; decide), length_setLen]
    rfl
  rw [decryptChunk, hspan, Result.ok_bind, hread]
  rfl

theorem reachableCache_empty {decrypt : Entry → UInt64 → Result Bytes} {es : List Entry}
    (maxBytes : Nat) : ReachableCache decrypt es maxBytes (.empty maxBytes) :=
  ⟨[], .start maxBytes, by simp, rfl, rfl⟩

/-- An empty read at offset zero is reported as damage, although the file authenticates. -/
theorem empty_read_at_start_fails :
    validateIndex .stored .unix sampleOpened.header sampleIndex = .ok sampleOpened.index ∧
    sampleFile ∈ sampleIndex.entries ∧ sampleFile.kind = .file ∧
    (∀ i < sampleFile.chunkCount, decryptChunk clearCrypto sampleOpened sampleFile i =
      .ok [104, 101, 108, 108, 111]) ∧
    ReachableCache (decryptChunk clearCrypto sampleOpened) sampleIndex.entries 64 (.empty 64) ∧
    read clearCrypto sampleOpened (fun _ => .empty 64) sampleFile.id 0 0 =
      .error (.integrity ⟨.message "Read range overflow", []⟩) := by
  refine ⟨validateIndex_eq_ok.mpr ⟨sampleIndex_accepted _, rfl⟩, by simp [sampleIndex], rfl, ?_,
    reachableCache_empty 64, rfl⟩
  intro i hi
  obtain rfl : i = 0 := by
    rw [UInt64.lt_iff_toNat_lt] at hi
    exact UInt64.toNat_inj.mp (Nat.lt_one_iff.mp hi)
  exact decryptChunk_sampleOpened

theorem read_eq_slice_iff_sample :
    read clearCrypto sampleOpened (fun _ => .empty 64) sampleFile.id 1 3 =
      .ok (slice (plaintext (fun _ => [104, 101, 108, 108, 111]) sampleFile) 1 4) := by
  have hindex : validateIndex .stored .unix sampleOpened.header sampleIndex =
      .ok sampleOpened.index := validateIndex_eq_ok.mpr ⟨sampleIndex_accepted _, rfl⟩
  have hchunk : ∀ i < sampleFile.chunkCount, decryptChunk clearCrypto sampleOpened sampleFile i =
      .ok ((fun _ => [104, 101, 108, 108, 111]) i) := by
    intro i hi
    obtain rfl : i = 0 := by
      rw [UInt64.lt_iff_toNat_lt] at hi
      exact UInt64.toNat_inj.mp (Nat.lt_one_iff.mp hi)
    exact decryptChunk_sampleOpened
  exact (read_eq_slice_iff hindex (by simp [sampleIndex]) rfl hchunk
    (fun _ => reachableCache_empty 64)).mpr (by decide)

end CipherFS.ReadOnlyFs
