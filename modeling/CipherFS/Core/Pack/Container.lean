import CipherFS.Core.Pack.Snapshot
import CipherFS.Core.V2.StoredChunks
import CipherFS.Framework.Regions

/-!
# What is written into the container

The chunk tasks of all files write at the same time, each inside the extent of
its chunk. A task that reads a source file reads the content of the snapshot, or
the file is stale from then on; and a file that still shows the fingerprint of its
snapshot when all of its chunks are written is not stale. So when the
container is written, every chunk in it decrypts to its part of that content.
-/

namespace CipherFS

open WorldProg Prog V2 Result Tiling
open Extract (Holds)

variable {α Key : Type} {n total m : Nat} {v : Inode} {K K' : Nat → Prop} {w w' : World}
  {P Q' : World → Prop} {Q : α → World → Prop}

/-! ## Parts of the container -/

/-- The steps of a run that leave some bytes of its own file `n` as they are. -/
structure Spares (n : Nat) (K : Nat → Prop) (w w' : World) : Prop where
  leaves : Leaves w w'
  tree : w'.fs.tree = w.fs.tree
  length : (w'.fs.inodes (.own n)).content.length = (w.fs.inodes (.own n)).content.length
  bytes : ∀ i, K i → (w'.fs.inodes (.own n)).content.getD i 0 =
    (w.fs.inodes (.own n)).content.getD i 0

theorem Spares.refl (w : World) : Spares n K w w :=
  ⟨⟨fun _ => rfl, rfl, rfl, rfl⟩, rfl, rfl, fun _ _ => rfl⟩

theorem Spares.logged (h : Spares n K w w') (fs : List Error) :
    Spares n K w { w' with failures := fs } :=
  ⟨⟨h.leaves.inodes, h.leaves.versions, h.leaves.next, h.leaves.others⟩, h.tree, h.length, h.bytes⟩

/-- The bytes of the own file `n` as locations. -/
def ownFile (n : Nat) : Regional World Nat where
  spares := Spares n
  anti h hs := { hs with bytes := fun i hi => hs.bytes i (h i hi) }

/-- A write inside a region of a file that is long enough. -/
theorem Spares.overwrite {pos : Nat} {data : Bytes} (i : WorldInput)
    (hin : pos + data.length ≤ (w.fs.inodes (.own n)).content.length)
    (hK : ∀ i, pos ≤ i → i < pos + data.length → K i) :
    Spares n (fun i => ¬K i) w (Op.overwrite n (writeAt · pos data) i w) where
  leaves := by
    refine ⟨fun m => ?_, rfl, rfl, rfl⟩
    simp only [Op.overwrite, Fs.setInode]
    exact Function.update_of_ne Ino.noConfusion ..
  tree := rfl
  length := by
    simp only [Op.overwrite, Fs.setInode, Function.update_self]
    exact length_writeAt_of_le hin
  bytes i hi := by
    simp only [Op.overwrite, Fs.setInode, Function.update_self, getD_writeAt]
    exact if_neg fun h => hi (hK i h.1 h.2)

/-- A call that writes inside a region, whether it fails or not. -/
theorem Spares.writeAllAt {pos : UInt64} {data : Bytes} (i : WorldInput)
    (hin : pos.toNat + data.length ≤ (w.fs.inodes (.own n)).content.length)
    (hK : ∀ i, pos.toNat ≤ i → i < pos.toNat + data.length → K i) :
    Spares n (fun i => ¬K i) w (Op.writeAllAt n data pos i w).2 := by
  unfold Op.writeAllAt
  split
  · exact Spares.overwrite i hin hK
  · have hle : (data.take i.written).length ≤ data.length := List.length_take_le' _ _
    refine Spares.overwrite i (Nat.le_trans (Nat.add_le_add_left hle _) hin) ?_
    intro j hlo hhi
    exact hK j hlo (Nat.lt_of_lt_of_le hhi (Nat.add_le_add_left hle _))

/-! ## Tasks -/

/-- Neither somebody else nor a task that spares the region breaks the assertion. -/
structure Steady (n : Nat) (K : Nat → Prop) (P : World → Prop) : Prop where
  env : ∀ w a w', w.env a = some w' → P w → P w'
  spares : ∀ w w', Spares n K w w' → P w → P w'

theorem Steady.stable (h : Steady n K P) : ((ownFile n).beside World.sharing K).Stable P :=
  (ownFile n).stable_beside (World.stable_env h.env) h.spares

theorem Steady.stable_sharing (h : Steady n K P) : World.sharing.Stable P :=
  World.stable_env h.env

theorem Steady.and (h : Steady n K P) (h' : Steady n K Q') : Steady n K fun w => P w ∧ Q' w where
  env w a w' ha hw := ⟨h.env w a w' ha hw.1, h'.env w a w' ha hw.2⟩
  spares w w' hs hw := ⟨h.spares w w' hs hw.1, h'.spares w w' hs hw.2⟩

theorem Steady.mono (h : Steady n K P) (hK : ∀ i, K i → K' i) : Steady n K' P where
  env := h.env
  spares w w' hs := h.spares w w' ((ownFile n).anti hK hs)

/-- A task that writes inside its region of the own file `n`, and nowhere else. -/
abbrev Writes (n : Nat) (K : Nat → Prop) (P : World → Prop) (m : WorldProg α)
    (Q : α → World → Prop) : Prop :=
  Triple (fun _ => True) ((ownFile n).beside World.sharing K) ((ownFile n).Touches K) P m Q
    fun _ _ => True

theorem writes_perform {op : Op α} (hP : Steady n K P)
    (hG : ∀ i w, P w → Spares n (fun i => ¬K i) w (op i w).2)
    (hQ : ∀ i w a w', P w → op i w = (.ok a, w') → Q a w') : Writes n K P (perform op) Q := by
  refine .call hP.stable ?_
  intro i w _ hw
  have hspares := hG i w hw
  rcases hop : op i w with ⟨e | a, w'⟩
  · rw [hop] at hspares
    exact ⟨hspares.logged _, trivial⟩
  · rw [hop] at hspares
    exact ⟨hspares, hQ i w a w' hw hop⟩

theorem writes_reading {f : World → Result α} (hP : Steady n K P)
    (hQ : ∀ w a, P w → f w = .ok a → Q a w) : Writes n K P (perform (Op.reading f)) Q := by
  refine writes_perform hP ?_ ?_
  · intro i w _
    unfold Op.reading Op.io
    split <;> exact Spares.refl w
  · intro i w a w' hw hop
    obtain ⟨hf, rfl⟩ := reading_ok hop
    exact hQ w' a hw hf

theorem writes_require (hP : Steady n K P) (r : Result α) :
    Writes n K P (require r) fun a w => r = .ok a ∧ P w := by
  cases r with
  | ok a => exact .pure fun w hw => ⟨rfl, hw⟩
  | error e =>
      show Writes n K P (perform fun _ w => (.error e, w)) _
      refine writes_perform hP (fun i w _ => Spares.refl w) ?_
      intro i w a w' _ hop
      cases (Prod.mk.inj hop).1

theorem writes_check (hP : Steady n K P) : Writes n K P (Prog.check : WorldProg Unit) fun _ => P := by
  refine .call hP.stable ?_
  intro i w _ hw
  refine ⟨Spares.refl w, ?_⟩
  dsimp only
  split
  · trivial
  · exact hw

theorem writes_advance (hP : Steady n K P) (t : ProgressTracker) (amount : UInt64) :
    Writes n K P (t.advance amount : WorldProg Unit) fun _ => P := by
  have hcontrol : ∀ (w : World) (c : Control) (K' : Nat → Prop),
      Spares n K' w { w with control := c } := fun w c K' =>
    ⟨⟨fun _ => rfl, rfl, rfl, rfl⟩, rfl, rfl, fun _ _ => rfl⟩
  exact .modify hP.stable (fun w _ => hcontrol w _ _) fun w hw => hP.spares w _ (hcontrol w _ _) hw

/-! ## One chunk -/

/-- A task encrypts a content that a source file has had, into a file that has
its full length. -/
structure Encrypting (n total m : Nat) (v : Inode) (w : World) : Prop where
  length : (w.fs.inodes (.own n)).content.length = total
  recorded : Recorded w
  seen : Seen m v w

theorem Encrypting.steady : Steady n K (Encrypting n total m v) where
  env w a w' ha hw := by
    refine ⟨?_, hw.recorded.env ha, hw.seen.env ha⟩
    rw [(World.interferes_of_env ha).own]
    exact hw.length
  spares w w' hs hw :=
    ⟨hs.length.trans hw.length, hw.recorded.own hs.leaves, hw.seen.own hs.leaves⟩

theorem Stale.steady : Steady n K (Stale m v) where
  env _ _ _ ha hw := hw.env ha
  spares _ _ hs hw := hw.own hs.leaves

namespace Pack

variable {R : Reader Key} {job : EncryptJob} {dek : ByteArr 32} {ix : ValidatedIndex} {k : UInt64}
  {key : Key} {e : Entry}

/-- The container over the bytes that a world has for it. -/
def EncryptJob.opened (job : EncryptJob) (dek : ByteArr 32) (ix : ValidatedIndex) (w : World) :
    OpenedContainer (ByteArr 48) :=
  ⟨(w.fs.inodes (.own job.output)).content, job.header, ix, dek, job.dataStart⟩

/-- The chunk in the container is its part of the content, which has that part. -/
structure ChunkStored (R : Reader Key) (job : EncryptJob) (dek : ByteArr 32) (ix : ValidatedIndex)
    (v : Inode) (k : UInt64) (w : World) : Prop where
  decrypts : decryptChunk R.crypto (job.opened dek ix w) job.entry k =
    .ok (chunkOf v.content job.entry k)
  within : k.toNat * 4194304 + job.entry.chunkLen k ≤ v.content.length

/-- Where a chunk lies. -/
def chunkRegion (dataStart : UInt64) (e : Entry) (k : UInt64) (i : Nat) : Prop :=
  Covers (chunkExtent dataStart e k.toNat) i

theorem ChunkStored.steady (hfits : FileFits job.dataStart job.entry)
    (hk : k < job.entry.chunkCount) :
    Steady job.output (chunkRegion job.dataStart job.entry k) (ChunkStored R job dek ix v k) where
  env w a w' ha hw := by
    have hown := (World.interferes_of_env ha).own job.output
    refine ⟨?_, hw.within⟩
    rw [EncryptJob.opened, hown]
    exact hw.decrypts
  spares w w' hs hw := by
    refine ⟨?_, hw.within⟩
    let opened := job.opened dek ix w
    have hsame : decryptChunk R.crypto
        { opened with file := (w'.fs.inodes (.own job.output)).content } job.entry k =
          decryptChunk R.crypto { opened with file := opened.file } job.entry k :=
      decryptChunk_congr hfits hk hs.length hs.bytes
    exact hsame.trans hw.decrypts

/-- What the task of a chunk comes to. -/
def ChunkDone (R : Reader Key) (job : EncryptJob) (dek : ByteArr 32) (ix : ValidatedIndex)
    (m : Nat) (v : Inode) (k : UInt64) (w : World) : Prop :=
  Stale m v w ∨ ChunkStored R job dek ix v k w

theorem ChunkDone.steady (hfits : FileFits job.dataStart job.entry)
    (hk : k < job.entry.chunkCount) :
    Steady job.output (chunkRegion job.dataStart job.entry k)
      (ChunkDone R job dek ix m v k) where
  env w a w' ha hw := hw.imp (fun h => h.env ha) fun h => (ChunkStored.steady hfits hk).env w a w' ha h
  spares w w' hs hw := hw.imp (fun h => h.own hs.leaves) fun h =>
    (ChunkStored.steady hfits hk).spares w w' hs h

/-- What a task knows of the bytes that it has read. -/
def ChunkRead (e : Entry) (m : Nat) (v : Inode) (k : UInt64) (buffer : Bytes) (w : World) : Prop :=
  Stale m v w ∨ buffer = chunkOf v.content e k ∧ k.toNat * 4194304 + e.chunkLen k ≤ v.content.length

theorem writes_encryptStoredChunk (hC : R.crypto.Correct) (hfits : FileFits job.dataStart job.entry)
    (hin : job.dataStart.toNat + job.entry.dataOffset.toNat + job.entry.encryptedSize.toNat ≤ total)
    (hk : k < job.entry.chunkCount)
    (hkey : deriveFileKey R.crypto dek job.header.containerId job.entry.fileId = .ok key) :
    Writes job.output (chunkRegion job.dataStart job.entry k) (Encrypting job.output total m v)
      (encryptStoredChunk R job (.file (.other m)) key k)
      fun _ => ChunkDone R job dek ix m v k := by
  have hsteady : Steady job.output (chunkRegion job.dataStart job.entry k)
      (Encrypting job.output total m v) := Encrypting.steady
  obtain ⟨off, expected, hspan, hoff, hexpected⟩ := hfits.sourceSpan_ok hk
  have hpos : 0 < job.entry.chunkLen k := by
    refine Chunking.len_pos (by decide) ?_
    rw [← hfits.count]
    exact UInt64.lt_iff_toNat_lt.mp hk
  unfold encryptStoredChunk
  refine .bind (writes_check hsteady) fun _ => .bind (writes_require hsteady _) fun span =>
    .assume fun hspan' => ?_
  obtain rfl := Except.ok.inj (hspan.symm.trans hspan')
  have hread : ∀ buffer, Steady job.output (chunkRegion job.dataStart job.entry k)
      (ChunkRead job.entry m v k buffer) := fun buffer =>
    { env := fun w a w' ha hw => hw.imp (fun h => h.env ha) id
      spares := fun w w' hs hw => hw.imp (fun h => h.own hs.leaves) id }
  refine .bind (Q := fun buffer w => buffer.length = job.entry.chunkLen k ∧
    Encrypting job.output total m v w ∧ ChunkRead job.entry m v k buffer w)
    (.mapError (writes_reading hsteady ?_)) fun buffer => .assume fun hlen => ?_
  · intro w buffer hw hbuffer
    have hdata := readExactAt_eq_ok.mp hbuffer
    obtain ⟨hlen, hfile, -⟩ := readAt_eq_some_iff.mp hdata
    refine ⟨hlen.trans hexpected, hw, ?_⟩
    by_cases hv : w.fs.inodes (.other m) = v
    · rw [hv] at hdata hfile
      rw [hoff, hexpected] at hdata hfile
      have hle := hfile.resolve_left (Nat.pos_iff_ne_zero.mp hpos)
      rw [readAt_eq_some_slice hle] at hdata
      exact .inr ⟨(Option.some.inj hdata).symm, hle⟩
    · exact .inl (hw.seen.stale hv)
  have hboth := hsteady.and (hread buffer)
  refine .bind (writes_require hboth _) fun write => .assume fun hwrite => ?_
  have hdone : Steady job.output (chunkRegion job.dataStart job.entry k)
      (ChunkDone R job dek ix m v k) := ChunkDone.steady hfits hk
  refine .bind (Q := fun _ => ChunkDone R job dek ix m v k) ?_ fun _ => writes_advance hdone _ _
  have hextent := writeExtent_of_encryptChunk hC hfits hk hlen hwrite
  have hstart : write.1 = (chunkExtent job.dataStart job.entry k.toNat).1 :=
    congrArg Prod.fst hextent
  have hlength : write.2.length = (chunkExtent job.dataStart job.entry k.toNat).2 :=
    congrArg Prod.snd hextent
  have hend : (chunkExtent job.dataStart job.entry k.toNat).1 +
      (chunkExtent job.dataStart job.entry k.toNat).2 ≤
      job.dataStart.toNat + job.entry.dataOffset.toNat + job.entry.encryptedSize.toNat := by
    have hle := hfits.extent_le hk
    simp only [chunkExtent, Chunking.extent] at hle ⊢
    omega
  have hdest : (UInt64.ofNat write.1).toNat = write.1 := by
    have hlt : write.1 < 2 ^ 64 := by
      have hbound := hfits.fits
      omega
    exact UInt64.toNat_ofNat_of_lt' hlt
  have hroom : ∀ w, Encrypting job.output total m v w →
      (UInt64.ofNat write.1).toNat + write.2.length ≤
        (w.fs.inodes (.own job.output)).content.length := by
    intro w hw
    rw [hdest, hstart, hlength, hw.length]
    exact Nat.le_trans hend hin
  have hregion : ∀ i, (UInt64.ofNat write.1).toNat ≤ i →
      i < (UInt64.ofNat write.1).toNat + write.2.length →
      chunkRegion job.dataStart job.entry k i := by
    rw [hdest, hstart, hlength]
    exact fun i hlo hhi => ⟨hlo, hhi⟩
  refine writes_perform hboth (fun i w hw => Spares.writeAllAt i (hroom w hw.1) hregion) ?_
  intro i w _ w' hw hop
  have hspares := Spares.writeAllAt i (hroom w hw.1) hregion
  rw [hop] at hspares
  rcases hw.2 with hstale | ⟨hbuffer, hwithin⟩
  · exact .inl (hstale.own hspares.leaves)
  · refine .inr ⟨?_, hwithin⟩
    unfold Op.writeAllAt at hop
    split at hop
    · obtain ⟨-, rfl⟩ := Prod.mk.inj hop
      rw [← hbuffer]
      simp only [EncryptJob.opened, Op.overwrite, Fs.setInode, Function.update_self, hdest]
      let opened := job.opened dek ix w
      have hstored : decryptChunk R.crypto
          { opened with file := writeAt opened.file write.1 write.2 } job.entry k = .ok buffer :=
        decryptChunk_writeAt hC hfits hk hkey hlen hwrite
      exact hstored
    · cases (Prod.mk.inj hop).1

/-! ## One file -/

theorem writes_ensureUnchanged {snapshot : SourceSnapshot} {file : FsNode} (hP : Steady n K P)
    (hQ : Steady n K Q')
    (h : ∀ w ino, P w → file = .file ino → snapshot.fingerprint =
      ⟨UInt64.ofNat (w.fs.inodes ino).content.length, (w.fs.inodes ino).modified, ino⟩ → Q' w) :
    Writes n K P (ensureUnchanged snapshot file) fun _ => Q' := by
  have hknown : ∀ print, Steady n K fun w => print = snapshot.fingerprint → Q' w := fun print =>
    { env := fun w a w' ha hw hprint => hQ.env w a w' ha (hw hprint)
      spares := fun w w' hs hw hprint => hQ.spares w w' hs (hw hprint) }
  unfold ensureUnchanged
  refine .bind (Q := fun print w => print = snapshot.fingerprint → Q' w) (writes_reading hP ?_)
    fun print => ?_
  · intro w print hw hread hprint
    cases file with
    | file ino => exact h w ino hw rfl (hprint.symm.trans (Except.ok.inj hread).symm)
    | directory => cases hread
    | symlink target => cases hread
    | special => cases hread
  · refine (writes_require (hknown print) _).conseq (fun _ hw => hw) ?_ fun _ _ he => he
    rintro _ w ⟨hequal, hw⟩
    exact hw (not_not.mp (rejectIf_eq_ok.mp hequal))

/-- Where the chunks of a file lie. -/
def fileRegion (dataStart : UInt64) (e : Entry) (i : Nat) : Prop :=
  Covers (dataStart.toNat + e.dataOffset.toNat, e.encryptedSize.toNat) i

theorem chunkRegion_within {dataStart : UInt64} (hfits : FileFits dataStart e)
    (hk : k < e.chunkCount) {i : Nat} (hi : chunkRegion dataStart e k i) :
    fileRegion dataStart e i := by
  have hle := hfits.extent_le hk
  obtain ⟨hlo, hhi⟩ := hi
  simp only [chunkExtent, Chunking.extent] at hle hlo hhi
  refine ⟨?_, ?_⟩
  · dsimp only
    omega
  · dsimp only
    omega

theorem chunkRegions_apart {dataStart : UInt64} (hfits : FileFits dataStart e) :
    e.chunkIndices.Pairwise fun k k' =>
      ∀ i, chunkRegion dataStart e k i → ¬chunkRegion dataStart e k' i := by
  have htile := Chunking.contiguous_extents (c := 4194304) (t := 16) (n := e.size.toNat) (by decide)
  rw [← hfits.count] at htile
  have hapart := (htile.shift (dataStart.toNat + e.dataOffset.toNat)).pairwise_apart
  rw [List.map_map, List.pairwise_map] at hapart
  rw [Entry.chunkIndices, List.pairwise_map]
  have hindex : ∀ {i}, i ∈ List.range e.chunkCount.toNat → (UInt64.ofNat i).toNat = i := fun hi =>
    UInt64.toNat_ofNat_of_lt' (Nat.lt_trans (List.mem_range.mp hi) e.chunkCount.toNat_lt)
  refine hapart.imp_of_mem ?_
  intro i j hi hj h p hp hq
  rw [chunkRegion, hindex hi] at hp
  rw [chunkRegion, hindex hj] at hq
  exact h p ⟨hp, hq⟩

/-- All chunks of a file in the container are those of one content that the file
has had. -/
structure FileStored (R : Reader Key) (job : EncryptJob) (dek : ByteArr 32) (ix : ValidatedIndex)
    (m : Nat) (v : Inode) (w : World) : Prop where
  version : v ∈ w.versions m
  chunks : ∀ k < job.entry.chunkCount, ChunkStored R job dek ix v k w

theorem FileStored.steady (hfits : FileFits job.dataStart job.entry) :
    Steady job.output (fileRegion job.dataStart job.entry) (FileStored R job dek ix m v) where
  env w a w' ha hw := by
    refine ⟨World.mem_versions_env ha hw.version, ?_⟩
    intro k hk
    exact (ChunkStored.steady hfits hk).env w a w' ha (hw.chunks k hk)
  spares w w' hs hw := by
    refine ⟨?_, ?_⟩
    · rw [hs.leaves.versions]
      exact hw.version
    · intro k hk
      have hsteady : Steady job.output (fileRegion job.dataStart job.entry)
          (ChunkStored R job dek ix v k) :=
        (ChunkStored.steady hfits hk).mono fun i hi => chunkRegion_within hfits hk hi
      exact hsteady.spares w w' hs (hw.chunks k hk)

/-- **A file that is unchanged at the end has been stored as it was seen.** -/
theorem writes_encryptSourceFile (hC : R.crypto.Correct) (ix : ValidatedIndex)
    (hfits : FileFits job.dataStart job.entry)
    (hin : job.dataStart.toNat + job.entry.dataOffset.toNat + job.entry.encryptedSize.toNat ≤ total)
    (hprint : job.snapshot.fingerprint = fingerprintOf m v) :
    Writes job.output (fileRegion job.dataStart job.entry) (Encrypting job.output total m v)
      (encryptSourceFile R dek job) fun _ => FileStored R job dek ix m v := by
  have hsteady : Steady job.output (fileRegion job.dataStart job.entry)
      (Encrypting job.output total m v) := Encrypting.steady
  unfold encryptSourceFile
  refine .bind (Q := fun _ => Encrypting job.output total m v)
    (.mapError (writes_reading hsteady fun _ _ hw _ => hw)) fun file => ?_
  have hfile : Steady job.output (fileRegion job.dataStart job.entry) fun w =>
      file = .file (.other m) ∧ Encrypting job.output total m v w :=
    { env := fun w a w' ha hw => ⟨hw.1, hsteady.env w a w' ha hw.2⟩
      spares := fun w w' hs hw => ⟨hw.1, hsteady.spares w w' hs hw.2⟩ }
  refine .bind (writes_ensureUnchanged hsteady hfile ?_) fun _ => .assume fun hnode => ?_
  · intro w ino hw hnode hread
    have hino := congrArg FileFingerprint.identity (hprint.symm.trans hread)
    obtain rfl : Ino.other m = ino := hino
    exact ⟨hnode, hw⟩
  subst hnode
  refine .bind (writes_require hsteady _) fun key => .assume fun hkey => ?_
  -- the children rely on their own chunks only, and each gives back what became of its chunk
  refine .bind (Q := fun _ w => Encrypting job.output total m v w ∧
      ∀ k ∈ job.entry.chunkIndices, ChunkDone R job dek ix m v k w) ?_ fun _ => ?_
  · refine Triple.parForEach_regions (ownFile job.output) World.sharing
      (fun k => chunkRegion job.dataStart job.entry k) (fun _ => Encrypting job.output total m v)
      (fun _ _ h => h) (fun _ _ h => h) ?_ (chunkRegions_apart hfits) hsteady.stable
      (fun w w' h hw => (Encrypting.steady (K := fun i => ¬fileRegion _ _ i)).spares w w' h hw)
      (fun _ hw => hw) (fun _ hw _ _ => hw) ?_ ?_
    · intro k hk i hi
      exact chunkRegion_within hfits (mem_chunkIndices.mp hk) hi
    · intro k hk
      exact writes_encryptStoredChunk hC hfits hin (mem_chunkIndices.mp hk) hkey
    · intro k hk
      exact (ChunkDone.steady hfits (mem_chunkIndices.mp hk)).stable
  · have hchunks : Steady job.output (fileRegion job.dataStart job.entry) fun w =>
        Encrypting job.output total m v w ∧
          ∀ k ∈ job.entry.chunkIndices, ChunkDone R job dek ix m v k w :=
      { env := fun w a w' ha hw => ⟨hsteady.env w a w' ha hw.1, fun k hk =>
          (ChunkDone.steady hfits (mem_chunkIndices.mp hk)).env w a w' ha (hw.2 k hk)⟩
        spares := fun w w' hs hw => ⟨hsteady.spares w w' hs hw.1, fun k hk =>
          ((ChunkDone.steady hfits (mem_chunkIndices.mp hk)).mono fun i hi =>
            chunkRegion_within hfits (mem_chunkIndices.mp hk) hi).spares w w' hs (hw.2 k hk)⟩ }
    refine writes_ensureUnchanged hchunks (FileStored.steady hfits) ?_
    rintro w ino ⟨hw, hdone⟩ hnode hread
    obtain rfl := FsNode.file.inj hnode
    have hcurrent : w.fs.inodes (.other m) = v :=
      Seen.eq_of_fingerprint hw.seen hw.recorded (hread.symm.trans hprint)
    refine ⟨hw.seen.version, ?_⟩
    intro k hk
    refine (hdone k (mem_chunkIndices.mpr hk)).resolve_left ?_
    intro hstale
    exact hstale.print (congrArg Inode.print hcurrent)

end Pack

end CipherFS
