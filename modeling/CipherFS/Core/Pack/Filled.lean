import CipherFS.Core.Observing
import CipherFS.Core.Pack.Container

/-!
# The container when it has been filled

The files of the scan have regions that are apart, so the tasks of all sources run
side by side; and all of them write behind the header and the index. What the
loop comes to is a container in which every source has its chunks.
-/

namespace CipherFS

open WorldProg Prog V2 Result Tiling
open Extract (Holds)

variable {Key : Type} {n total m : Nat} {v : Inode} {w w' : World} {temp : Path}
  {parts : List FileWrite} {a : EnvAction}

/-- Parts before a region are spared by a write inside of it. -/
theorem Sealed.steady {d : Nat} (hbehind : ∀ part ∈ parts, part.1 + part.2.length ≤ d) :
    Steady n (fun i => ¬d ≤ i) (Sealed temp n parts) where
  env w a w' ha hw := Sealed.stable w w' hw (.single ⟨a, ha⟩)
  spares w w' hs hw := by
    refine ⟨?_, ?_⟩
    · rw [hs.tree]
      exact hw.place
    · intro part hpart
      rw [← hw.parts part hpart]
      apply readAt_congr hs.length
      intro i _ hhi
      exact hs.bytes i (Nat.not_le.mpr (Nat.lt_of_lt_of_le hhi (hbehind part hpart)))

namespace Pack

variable {R : Reader Key} {scan : Scan} {prepared : Prepared} {dataStart : UInt64}
  {source : UInt64 × SourceSnapshot} {ix : ValidatedIndex}

/-! ## The regions of the sources -/

/-- Where the chunks of a source lie. -/
def sourceRegion (scan : Scan) (dataStart : UInt64) (source : UInt64 × SourceSnapshot) (i : Nat) :
    Prop := ∃ e, entryById scan.entries source.1 = some e ∧ fileRegion dataStart e i

theorem sourceRegions_apart {b : Nat} (htally : Tally scan)
    (hlayout : Contiguous 0 ((fileExtents scan.entries).map toExtent) b) :
    scan.sources.Pairwise fun s s' =>
      ∀ i, sourceRegion scan dataStart s i → ¬sourceRegion scan dataStart s' i := by
  have hapart := (hlayout.shift dataStart.toNat).pairwise_apart
  rw [fileExtents, List.map_map, List.map_map, List.pairwise_map] at hapart
  have hids : ((scan.entries.filter Entry.isFile).map Entry.id).Pairwise fun id id' =>
      ∀ i, (∃ e, entryById scan.entries id = some e ∧ fileRegion dataStart e i) →
        ¬∃ e, entryById scan.entries id' = some e ∧ fileRegion dataStart e i := by
    refine List.pairwise_map.mpr (hapart.imp_of_mem ?_)
    rintro e e' he he' h i ⟨x, hx, hi⟩ ⟨y, hy, hi'⟩
    rw [htally.entryById_eq (List.mem_of_mem_filter he)] at hx
    rw [htally.entryById_eq (List.mem_of_mem_filter he')] at hy
    obtain rfl := Option.some.inj hx
    obtain rfl := Option.some.inj hy
    exact h i ⟨hi, hi'⟩
  rw [← htally.sources, List.pairwise_map] at hids
  exact hids

/-! ## One source -/

/-- The snapshot of a source, and the size in its entry, are of one file. -/
structure Sampled (scan : Scan) (source : UInt64 × SourceSnapshot) (m : Nat) (v : Inode)
    (w : World) : Prop where
  shot : Shot source.2 m v w
  size : ∀ e, entryById scan.entries source.1 = some e → HadLength m e.size w

theorem HadLength.own {size : UInt64} (hw : HadLength m size w) (h : Leaves w w') :
    HadLength m size w' := by
  obtain ⟨v, hv, hsize⟩ := hw
  refine ⟨v, ?_, hsize⟩
  rw [h.versions]
  exact hv

/-- All that is known of the sources while they are read. -/
structure Sourced (scan : Scan) (w : World) : Prop where
  recorded : Recorded w
  sampled : ∀ s ∈ scan.sources, ∃ m v, Sampled scan s m v w

theorem Sourced.env (hw : Sourced scan w) (h : w.env a = some w') : Sourced scan w' where
  recorded := hw.recorded.env h
  sampled s hs := by
    obtain ⟨m, v, hshot, hsize⟩ := hw.sampled s hs
    exact ⟨m, v, hshot.env h, fun e he => (hsize e he).env h⟩

theorem Sourced.own (hw : Sourced scan w) (h : Leaves w w') : Sourced scan w' where
  recorded := hw.recorded.own h
  sampled s hs := by
    obtain ⟨m, v, hshot, hsize⟩ := hw.sampled s hs
    exact ⟨m, v, hshot.own h, fun e he => (hsize e he).own h⟩

theorem Sourced.steady {K : Nat → Prop} : Steady n K (Sourced scan) where
  env _ _ _ ha hw := hw.env ha
  spares _ _ hs hw := hw.own hs.leaves

/-- The container has, of a source, a content that its file has had, as far as the
size in its entry goes; the size is of such a content too. -/
structure StoredFrom (R : Reader Key) (o : OpenedContainer (ByteArr 48)) (e : Entry) (m : Nat)
    (v : Inode) (w : World) : Prop where
  version : v ∈ w.versions m
  size : HadLength m e.size w
  chunks : ∀ k < e.chunkCount, decryptChunk R.crypto o e k = .ok (chunkOf v.content e k)
  within : ∀ k < e.chunkCount, k.toNat * 4194304 + e.chunkLen k ≤ v.content.length

def SourceStored (R : Reader Key) (scan : Scan) (opened : World → OpenedContainer (ByteArr 48))
    (source : UInt64 × SourceSnapshot) (w : World) : Prop :=
  ∃ e m v, entryById scan.entries source.1 = some e ∧
    source.2.fingerprint = fingerprintOf m v ∧ StoredFrom R (opened w) e m v w

theorem StoredFrom.env {o : OpenedContainer (ByteArr 48)} {e : Entry}
    (hw : StoredFrom R o e m v w) (h : w.env a = some w') : StoredFrom R o e m v w' :=
  { hw with version := World.mem_versions_env h hw.version, size := hw.size.env h }

theorem StoredFrom.own {o : OpenedContainer (ByteArr 48)} {e : Entry}
    (hw : StoredFrom R o e m v w) (h : Leaves w w') : StoredFrom R o e m v w' :=
  { hw with
    version := by
      rw [h.versions]
      exact hw.version
    size := hw.size.own h }

/-- The container of a packing, over what a world has for it. -/
def Prepared.opened (prepared : Prepared) (dataStart : UInt64) (ix : ValidatedIndex) (n : Nat)
    (w : World) : OpenedContainer (ByteArr 48) :=
  ⟨(w.fs.inodes (.own n)).content, prepared.header, ix, prepared.dek, dataStart⟩

/-- The files of the scan fit behind the start of the data. -/
def Fitting (scan : Scan) (dataStart : UInt64) (total : Nat) : Prop :=
  ∀ e ∈ scan.entries, e.kind = .file → FileFits dataStart e ∧
    dataStart.toNat + e.dataOffset.toNat + e.encryptedSize.toNat ≤ total

theorem entryById_mem {id : UInt64} {e : Entry} (h : entryById scan.entries id = some e) :
    e ∈ scan.entries := List.mem_reverse.mp (List.mem_of_find?_eq_some h)

/-- The entry of a source is the one of a file. -/
theorem Tally.source_file (htally : Tally scan) (hs : source ∈ scan.sources) {e : Entry}
    (he : entryById scan.entries source.1 = some e) : e.kind = .file := by
  have hid : source.1 ∈ scan.sources.map Prod.fst := List.mem_map_of_mem hs
  rw [htally.sources] at hid
  obtain ⟨x, hx, hxid⟩ := List.mem_map.mp hid
  obtain ⟨hx, hfile⟩ := List.mem_filter.mp hx
  rw [← hxid, htally.entryById_eq hx] at he
  obtain rfl := Option.some.inj he
  exact Entry.isFile_iff.mp hfile

theorem SourceStored.steady (htally : Tally scan) (hs : source ∈ scan.sources)
    (hfit : Fitting scan dataStart total) :
    Steady n (sourceRegion scan dataStart source)
      (SourceStored R scan (prepared.opened dataStart ix n) source) where
  env w a w' ha hw := by
    obtain ⟨e, m, v, he, hprint, hstored⟩ := hw
    refine ⟨e, m, v, he, hprint, ?_⟩
    rw [Prepared.opened, (World.interferes_of_env ha).own n]
    exact hstored.env ha
  spares w w' hs' hw := by
    obtain ⟨e, m, v, he, hprint, hstored⟩ := hw
    refine ⟨e, m, v, he, hprint, { hstored.own hs'.leaves with chunks := ?_ }⟩
    intro k hk
    obtain ⟨hfits, -⟩ := hfit e (entryById_mem he) (htally.source_file hs he)
    let opened := prepared.opened dataStart ix n w
    have hsame : decryptChunk R.crypto
        { opened with file := (w'.fs.inodes (.own n)).content } e k =
          decryptChunk R.crypto { opened with file := opened.file } e k :=
      decryptChunk_congr hfits hk hs'.length fun i hi =>
        hs'.bytes i ⟨e, he, chunkRegion_within hfits hk hi⟩
    exact hsame.trans (hstored.chunks k hk)

/-- The task of one source. -/
theorem writes_source (hC : R.crypto.Correct) (htally : Tally scan)
    (hfit : Fitting scan dataStart total) (progress : ProgressTracker)
    (hs : source ∈ scan.sources) :
    Writes n (sourceRegion scan dataStart source)
      (fun w => (w.fs.inodes (.own n)).content.length = total ∧ Sourced scan w)
      (do
        Prog.check
        let entry ← require (ofOption (entryById scan.entries source.1)
          "Internal source entry mismatch")
        encryptSourceFile R prepared.dek
          ⟨source.2, entry, prepared.header, dataStart, n, progress⟩)
      fun _ => SourceStored R scan (prepared.opened dataStart ix n) source := by
  have hsteady : Steady n (sourceRegion scan dataStart source) fun w =>
      (w.fs.inodes (.own n)).content.length = total ∧ Sourced scan w :=
    { env := by
        rintro w a w' ha ⟨hlen, hw⟩
        rw [(World.interferes_of_env ha).own n]
        exact ⟨hlen, hw.env ha⟩
      spares := fun w w' hs' hw => ⟨hs'.length.trans hw.1, hw.2.own hs'.leaves⟩ }
  refine .bind (writes_check hsteady) fun _ => .bind (writes_require hsteady _) fun entry =>
    .assume fun hentry => ?_
  rw [ofOption_eq_ok] at hentry
  have hfile := htally.source_file hs hentry
  obtain ⟨hfits, hin⟩ := hfit entry (entryById_mem hentry) hfile
  have hregion : ∀ i, sourceRegion scan dataStart source i ↔ fileRegion dataStart entry i := by
    intro i
    constructor
    · rintro ⟨e, he, hi⟩
      rw [hentry] at he
      obtain rfl := Option.some.inj he
      exact hi
    · intro hi
      exact ⟨entry, hentry, hi⟩
  refine .pre (P := fun w => ∃ m v, source.2.fingerprint = fingerprintOf m v ∧
    Encrypting n total m v w ∧ HadLength m entry.size w) ?_ ?_
  · refine .exists fun m => .exists fun v => .assume fun hprint => ?_
    let job : EncryptJob := ⟨source.2, entry, prepared.header, dataStart, n, progress⟩
    have hwrites : Writes job.output (fileRegion job.dataStart job.entry)
        (Encrypting job.output total m v) (encryptSourceFile R prepared.dek job)
        fun _ => FileStored R job prepared.dek ix m v :=
      writes_encryptSourceFile hC ix hfits hin hprint
    rw [funext fun i => propext (hregion i)]
    have hsize : ∀ K, Steady n K (HadLength m entry.size) := fun K =>
      { env := fun _ _ _ ha hw => hw.env ha
        spares := fun _ _ hs' hw => hw.own hs'.leaves }
    refine (hwrites.keep ⟨(hsize _).stable, fun w w' hw hs' => (hsize _).spares w w' hs' hw⟩).conseq
      (fun _ hw => hw) ?_ fun _ _ _ => trivial
    rintro _ w ⟨hw, hlength⟩
    exact ⟨entry, m, v, hentry, hprint, hw.version, hlength,
      fun k hk => (hw.chunks k hk).decrypts, fun k hk => (hw.chunks k hk).within⟩
  · rintro w ⟨hlen, hw⟩
    obtain ⟨m, v, hshot, hsize⟩ := hw.sampled source hs
    exact ⟨m, v, hshot.fingerprint, ⟨hlen, hw.recorded, hshot.seen⟩, hsize entry hentry⟩

/-! ## The whole container -/

/-- The container has everything of the packing. -/
structure Filled (R : Reader Key) (prepared : Prepared) (dataStart : UInt64) (ix : ValidatedIndex)
    (temp : Path) (n : Nat) (w : World) : Prop where
  sealed : Sealed temp n (sealedParts prepared) w
  length : (w.fs.inodes (.own n)).content.length =
    dataStart.toNat + prepared.header.dataSize.toNat
  recorded : Recorded w
  stored : ∀ s ∈ prepared.scan.sources,
    SourceStored R prepared.scan (prepared.opened dataStart ix n) s w

/-- A write of the header or the index, into a file of full length. -/
theorem holds_writePart {pos : UInt64} {data : Bytes}
    (hpos : ∀ part ∈ parts, part.1 + part.2.length ≤ pos.toNat)
    (hin : pos.toNat + data.length ≤ total) :
    Holds (fun _ => True)
      (fun w => Sealed temp n parts w ∧ (w.fs.inodes (.own n)).content.length = total ∧
        Sourced scan w) (perform (Op.writeAllAt n data pos))
      (fun _ w => Sealed temp n (parts ++ [(pos.toNat, data)]) w ∧
        (w.fs.inodes (.own n)).content.length = total ∧ Sourced scan w) fun _ _ => True := by
  have hstable : World.sharing.Stable fun w => Sealed temp n parts w ∧
      (w.fs.inodes (.own n)).content.length = total ∧ Sourced scan w := by
    apply World.stable_env
    rintro w a w' ha ⟨hw, hlen, hsourced⟩
    refine ⟨Sealed.stable w w' hw (.single ⟨a, ha⟩), ?_, hsourced.env ha⟩
    rw [(World.interferes_of_env ha).own n]
    exact hlen
  refine holds_perform hstable (fun _ _ _ _ _ _ => trivial) ?_
  intro i w _ w' hw hop
  unfold Op.writeAllAt at hop
  split at hop
  · obtain ⟨-, rfl⟩ := Prod.mk.inj hop
    obtain ⟨hw, hlen, hsourced⟩ := hw
    have hspares : Spares n (fun i => ¬True) w (Op.overwrite n (writeAt · pos.toNat data) i w) :=
      Spares.overwrite i (by rwa [hlen]) fun _ _ _ => trivial
    refine ⟨⟨hw.place, ?_⟩, hspares.length.trans hlen, hsourced.own hspares.leaves⟩
    intro part hpart
    rcases List.mem_append.mp hpart with hpart | hpart
    · exact (hw.overwrite hpos i []).parts part hpart
    · rw [List.mem_singleton.mp hpart]
      simp only [Op.overwrite, Fs.setInode, Function.update_self]
      exact readAt_writeAt _ _ _
  · cases (Prod.mk.inj hop).1

/-- What the writer needs of what has been prepared. -/
structure Laid (os : Platform) (prepared : Prepared) : Prop where
  tally : Tally prepared.scan
  accepted : AcceptedIndex os prepared.header prepared.scan.entries
  layout : Contiguous 0 ((fileExtents prepared.scan.entries).map toExtent)
    prepared.header.dataSize.toNat
  indexSize : prepared.header.indexSize.toNat = prepared.encryptedIndex.length

theorem Laid.fitting {os : Platform} (h : Laid os prepared)
    (hend : dataStart.toNat + prepared.header.dataSize.toNat < 2 ^ 64) :
    Fitting prepared.scan dataStart (dataStart.toNat + prepared.header.dataSize.toNat) := by
  intro e he hk
  refine ⟨h.accepted.fileFits hend he hk, ?_⟩
  have hmem : toExtent (e.dataOffset, e.encryptedSize, e.id) ∈
      (fileExtents prepared.scan.entries).map toExtent := by
    refine List.mem_map_of_mem (List.mem_map.mpr ⟨e, ?_, rfl⟩)
    exact List.mem_filter.mpr ⟨he, Entry.isFile_iff.mpr hk⟩
  have hle := (h.layout.bounds _ hmem).2
  simp only [toExtent] at hle
  omega

theorem Filled.env (hw : Filled R prepared dataStart ix temp n w) (h : w.env a = some w') :
    Filled R prepared dataStart ix temp n w' where
  sealed := Sealed.stable w w' hw.sealed (.single ⟨a, h⟩)
  length := by
    rw [(World.interferes_of_env h).own n]
    exact hw.length
  recorded := hw.recorded.env h
  stored s hs := by
    obtain ⟨e, m, v, he, hprint, hstored⟩ := hw.stored s hs
    refine ⟨e, m, v, he, hprint, ?_⟩
    rw [Prepared.opened, (World.interferes_of_env h).own n]
    exact hstored.env h

theorem Filled.stable : World.sharing.Stable (Filled R prepared dataStart ix temp n) :=
  World.stable_env fun _ _ _ h hw => hw.env h

/-- Reports and errors are beside the file system. -/
theorem Filled.observed (hw : Filled R prepared dataStart ix temp n w) (h : Observes w w') :
    Filled R prepared dataStart ix temp n w' where
  sealed := by
    refine ⟨?_, ?_⟩
    · rw [h.fs]
      exact hw.sealed.place
    · rw [h.fs]
      exact hw.sealed.parts
  length := by
    rw [h.fs]
    exact hw.length
  recorded := hw.recorded.own h.leaves
  stored s hs := by
    obtain ⟨e, m, v, he, hprint, hstored⟩ := hw.stored s hs
    refine ⟨e, m, v, he, hprint, ?_⟩
    rw [Prepared.opened, h.fs]
    exact hstored.own h.leaves

/-- **Everything that is known of the scan is in the container that it fills.** -/
theorem holds_fill (hC : R.crypto.Correct) (h : Laid R.os prepared) (ix : ValidatedIndex)
    (hstart : dataStartOf prepared.header = .ok dataStart) :
    Holds (fun _ => True) (fun w => Sealed temp n [] w ∧ Sourced prepared.scan w)
      (writeContainer R prepared n) (fun _ w => Filled R prepared dataStart ix temp n w ∧
        dataStart.toNat + prepared.header.dataSize.toNat < 2 ^ 64) fun _ _ => True := by
  have hbegin : World.sharing.Stable fun w => Sealed temp n [] w ∧ Sourced prepared.scan w := by
    apply World.stable_env
    rintro w a w' ha ⟨hw, hsourced⟩
    exact ⟨Sealed.stable w w' hw (.single ⟨a, ha⟩), hsourced.env ha⟩
  have hstart := ofOption_eq_ok.mp hstart
  unfold writeContainer
  refine .bind (holds_requires hbegin _) fun start => .assume fun hsame => ?_
  obtain rfl := Option.some.inj (hstart.symm.trans (ofOption_eq_ok.mp hsame))
  refine .bind (holds_requires hbegin _) fun size => .assume fun hsize => ?_
  have hsize := checkedAdd_eq_some_iff.mp (ofOption_eq_ok.mp hsize)
  have hstart := checkedAdd_eq_some_iff.mp hstart
  have hheader : (UInt64.ofNat headerSize).toNat = headerSize := by decide
  have hend : dataStart.toNat + prepared.header.dataSize.toNat < 2 ^ 64 := by
    rw [← hsize]
    exact size.toNat_lt
  have hfit := h.fitting hend
  let total := dataStart.toNat + prepared.header.dataSize.toNat
  have hindex := h.indexSize
  refine .bind (Q := fun _ w => Sealed temp n [] w ∧
      (w.fs.inodes (.own n)).content.length = total ∧ Sourced prepared.scan w) ?_ fun _ => ?_
  · refine holds_perform hbegin (fun _ _ _ _ _ _ => trivial) ?_
    intro i w _ w' hw hop
    obtain ⟨-, rfl⟩ := Prod.mk.inj (Route.io_ok hop)
    refine ⟨⟨hw.1.place, nofun⟩, ?_, hw.2.own ⟨fun m => ?_, rfl, rfl, rfl⟩⟩
    · simp only [Op.overwrite, Fs.setInode, Function.update_self, length_setLen]
      exact hsize
    · simp only [Op.overwrite, Fs.setInode]
      exact Function.update_of_ne Ino.noConfusion ..
  have hstable : ∀ parts, World.sharing.Stable fun w => Sealed temp n parts w ∧
      (w.fs.inodes (.own n)).content.length = total ∧ Sourced prepared.scan w := by
    intro parts
    apply World.stable_env
    rintro w a w' ha ⟨hw, hlen, hsourced⟩
    refine ⟨Sealed.stable w w' hw (.single ⟨a, ha⟩), ?_, hsourced.env ha⟩
    rw [(World.interferes_of_env ha).own n]
    exact hlen
  refine .bind (holds_requires (hstable _) _) fun image => .assume fun himage => ?_
  obtain rfl := Except.ok.inj ((serializeHeader_eq _).symm.trans himage)
  refine .bind (holds_writePart nofun ?_) fun _ => ?_
  · rw [length_image]
    show 0 + headerSize ≤ total
    omega
  refine .bind (holds_writePart ?_ ?_) fun _ => ?_
  · intro part hpart
    rw [List.mem_singleton.mp hpart, length_image]
    exact Nat.le_refl _
  · show (UInt64.ofNat headerSize).toNat + prepared.encryptedIndex.length ≤ total
    omega
  have hbehind : ∀ part ∈ sealedParts prepared, part.1 + part.2.length ≤ dataStart.toNat := by
    intro part hpart
    rcases List.mem_pair.mp hpart with rfl | rfl
    · rw [length_image]
      omega
    · dsimp only
      omega
  let Q : World → Prop := fun w => Sealed temp n (sealedParts prepared) w ∧
    (w.fs.inodes (.own n)).content.length = total ∧ Sourced prepared.scan w
  have hQ : World.sharing.Stable Q := hstable _
  refine .bind (Q := fun _ => Q) ?_ fun progress => ?_
  · have hcontrol : ∀ w (c : Control), Q w → Q { w with control := c } := fun w c hw =>
      ⟨⟨hw.1.place, hw.1.parts⟩, hw.2.1, hw.2.2.own ⟨fun _ => rfl, rfl, rfl, rfl⟩⟩
    exact (holds_keeping (kept_newTracker hcontrol) hQ).conseq (fun _ hw => hw)
      (fun _ _ hw => hw.2) fun _ _ he => he
  let F : World → Prop := fun w => Sealed temp n (sealedParts prepared) w ∧
    (w.fs.inodes (.own n)).content.length = total ∧ Recorded w
  have hF : Steady n (fun i => ¬dataStart.toNat ≤ i) F :=
    { env := by
        rintro w a w' ha ⟨hw, hlen, hrecorded⟩
        refine ⟨(Sealed.steady hbehind).env w a w' ha hw, ?_, hrecorded.env ha⟩
        rw [(World.interferes_of_env ha).own n]
        exact hlen
      spares := by
        rintro w w' hs ⟨hw, hlen, hrecorded⟩
        exact ⟨(Sealed.steady hbehind).spares w w' hs hw, hs.length.trans hlen,
          hrecorded.own hs.leaves⟩ }
  refine .bind (Q := fun _ w => F w ∧ ∀ s ∈ prepared.scan.sources,
    SourceStored R prepared.scan (prepared.opened dataStart ix n) s w) ?_ fun _ => ?_
  · -- the region of every source is behind the header and the index
    refine (Triple.parForEach_regions (K := fun i => dataStart.toNat ≤ i) (F := F) (ownFile n)
      World.sharing (sourceRegion prepared.scan dataStart)
      (fun _ w => (w.fs.inodes (.own n)).content.length = total ∧ Sourced prepared.scan w)
      ?_ (fun _ _ _ => trivial) ?_ (sourceRegions_apart h.tally h.layout)
      hF.stable_sharing (fun w w' hs hw => hF.spares w w' hs hw)
      (fun w hw => ⟨hw.1, hw.2.1, hw.2.2.recorded⟩) (fun w hw _ _ => hw.2) ?_ ?_)
    · intro w w' hrel
      exact (ownFile n).beside_of_rely hrel
    · rintro s hs i ⟨e, he, hi⟩
      have hlo : dataStart.toNat + e.dataOffset.toNat ≤ i := hi.1
      omega
    · intro s hs
      exact writes_source hC h.tally hfit progress hs
    · intro s hs
      exact (SourceStored.steady h.tally hs hfit).stable
  · have hlast : World.sharing.Stable fun w => F w ∧ ∀ s ∈ prepared.scan.sources,
        SourceStored R prepared.scan (prepared.opened dataStart ix n) s w := by
      apply World.stable_env
      rintro w a w' ha ⟨hw, hstored⟩
      refine ⟨hF.env w a w' ha hw, ?_⟩
      intro s hs
      exact (SourceStored.steady h.tally hs hfit).env w a w' ha (hstored s hs)
    refine holds_perform hlast (fun _ _ _ _ _ _ => trivial) ?_
    intro i w _ w' hw hop
    obtain ⟨-, rfl⟩ := reading_ok hop
    exact ⟨⟨hw.1.1, hw.1.2.1, hw.1.2.2, hw.2⟩, hend⟩

end Pack

end CipherFS
