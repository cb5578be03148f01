import CipherFS.Core.Cleanup
import CipherFS.Core.Progress.Tally

/-!
# What the self-verification opens

The temporary container holds the header and the index from when they are written
on: the chunk tasks write behind them, and nobody else writes to the file. So when
it is opened again the password unlocks the data key, and the index is the one of
the scan.
-/

namespace CipherFS

open WorldProg Prog V2 Result
open Extract (Holds)

variable {α Key : Type} {P : World → Prop} {Q : α → World → Prop} {w w' : World} {temp : Path}
  {n : Nat} {parts : List FileWrite} {K : World → World → Prop}

/-! ## Values -/

theorem reading_ok {f : World → Result α} {i : WorldInput} {a : α}
    (h : Op.reading f i w = (.ok a, w')) : f w = .ok a ∧ w' = w := by
  obtain ⟨hf, hw⟩ := Prod.mk.inj (Route.io_ok h)
  exact ⟨hf, hw.symm⟩

/-- What a call reads in every state of `P`. -/
theorem holds_reads {f : World → Result α} {a : α} (hP : World.sharing.Stable P)
    (h : ∀ w b, P w → f w = .ok b → b = a) :
    Holds (fun _ => True) P (perform (Op.reading f)) (fun b w => b = a ∧ P w) fun _ _ => True := by
  refine holds_perform hP (fun _ _ _ _ _ _ => trivial) fun i w b w' hw hop => ?_
  obtain ⟨hf, rfl⟩ := reading_ok hop
  exact ⟨h w' b hw hf, hw⟩

theorem holds_requires (hP : World.sharing.Stable P) (r : Result α) :
    Holds (fun _ => True) P (require r) (fun a w => r = .ok a ∧ P w) fun _ _ => True :=
  holds_require (fun _ _ ha hw => ⟨ha, hw⟩) (fun _ _ _ => trivial) hP

/-- A program whose steps keep an assertion. -/
theorem holds_keeping {V : α → Prop} {m : WorldProg α}
    (hm : Yields (keeping fun w w' => P w → P w') V m) (hP : World.sharing.Stable P) :
    Holds (fun _ => True) P m (fun a w => V a ∧ P w) fun _ _ => True := by
  let M : Rely World :=
    { rel := fun w w' => P w → P w'
      refl := fun _ h => h
      trans := fun h h' hw => h' (h hw) }
  have htriple : Triple (fun _ : WorldInput => True) World.sharing M.rel P m
      (fun a w => V a ∧ P w) fun _ w => True ∧ P w := by
    refine hm.triple (E := fun _ _ => True) (fun w w' h hw => hP w w' hw h) (fun w w' hw h => h hw)
      (fun _ _ _ _ _ => trivial) (fun hf i w r w' _ _ hstep => ?_) (fun _ _ _ _ _ => trivial)
      fun _ _ _ _ => trivial
    exact ⟨hf i w r w' hstep, fun _ _ => trivial⟩
  exact (htriple.widen fun _ _ _ => trivial).conseq (fun _ h => h) (fun _ _ h => h)
    fun _ _ _ => trivial

/-- A tracker changes nothing but the control part. -/
theorem kept_newTracker (hcontrol : ∀ w c, K w { w with control := c }) {phase : OperationPhase}
    {total : UInt64} {reporter : Reporter} :
    Built (keeping K) (ProgressTracker.new phase total reporter : WorldProg ProgressTracker) := by
  unfold ProgressTracker.new
  refine .bind (kept_onControl fun w => hcontrol w _) fun _ => ?_
  refine .bind (kept_onControl fun w => hcontrol w _) fun _ => ?_
  exact .bind (kept_onControl fun w => hcontrol w _) fun _ => .pure _

/-! ## The temporary container -/

/-- A file of this run is at the path, and has what has been written to it. -/
structure Sealed (temp : Path) (n : Nat) (parts : List FileWrite) (w : World) : Prop where
  place : w.fs.tree temp = some (.file (.own n))
  parts : ∀ part ∈ parts,
    readAt (w.fs.inodes (.own n)).content part.1 part.2.length = some part.2

namespace Sealed

theorem stable : World.sharing.Stable (Sealed temp n parts) := by
  apply World.stable_sharing
  intro w w' hi hw
  refine ⟨?_, fun part hpart => ?_⟩
  · rcases hi.tree temp with ⟨hfs, -⟩ | ⟨hnone, -⟩
    · rw [hfs, hw.place]
    · rw [hw.place] at hnone
      cases hnone
  · rw [hi.own n]
    exact hw.parts part hpart

/-- A write behind all parts. -/
theorem overwrite (hw : Sealed temp n parts w) {pos : Nat} {data : Bytes}
    (hpos : ∀ part ∈ parts, part.1 + part.2.length ≤ pos) (i : WorldInput) (fs : List Error) :
    Sealed temp n parts { Op.overwrite n (writeAt · pos data) i w with failures := fs } where
  place := hw.place
  parts part hpart := by
    simp only [Op.overwrite, Fs.setInode, Function.update_self]
    exact readAt_writeAt_of_le (hw.parts part hpart) (hpos part hpart) data

/-- A call that writes behind all parts, whether it fails or not. -/
theorem writeAllAt (hw : Sealed temp n parts w) {pos : UInt64} {data : Bytes}
    (hpos : ∀ part ∈ parts, part.1 + part.2.length ≤ pos.toNat) (i : WorldInput)
    (fs : List Error) :
    Sealed temp n parts { (Op.writeAllAt n data pos i w).2 with failures := fs } := by
  unfold Op.writeAllAt
  split
  · exact hw.overwrite hpos i fs
  · exact hw.overwrite hpos i fs

/-- One part more. -/
theorem holds_write {pos : UInt64} {data : Bytes}
    (hpos : ∀ part ∈ parts, part.1 + part.2.length ≤ pos.toNat) :
    Holds (fun _ => True) (Sealed temp n parts) (perform (Op.writeAllAt n data pos))
      (fun _ => Sealed temp n (parts ++ [(pos.toNat, data)])) fun _ _ => True := by
  refine holds_perform stable (fun _ _ _ _ _ _ => trivial) fun i w _ w' hw hop => ?_
  unfold Op.writeAllAt at hop
  split at hop
  · obtain ⟨-, rfl⟩ := Prod.mk.inj hop
    refine ⟨hw.place, fun part hpart => ?_⟩
    rcases List.mem_append.mp hpart with hpart | hpart
    · exact (hw.overwrite hpos i []).parts part hpart
    · rw [List.mem_singleton.mp hpart]
      simp only [Op.overwrite, Fs.setInode, Function.update_self]
      exact readAt_writeAt _ _ _
  · cases (Prod.mk.inj hop).1

end Sealed

namespace Pack

variable {R : Reader Key} {req : PackRequest} {prepared : Prepared}

/-- Chunks are written behind the start of the data. -/
theorem encryptChunk_behind {C : Crypto Key (ByteArr 48)} {header : Header (ByteArr 48)} {key : Key}
    {dataStart k : UInt64} {e : Entry} {buffer : Bytes} {write : FileWrite}
    (h : encryptChunk C header key dataStart e k buffer = .ok write) :
    dataStart.toNat ≤ (UInt64.ofNat write.1).toNat := by
  simp only [encryptChunk, chunkDestination, bind_eq_ok, ofOption_eq_ok, Option.bind_eq_some_iff,
    Except.ok.injEq] at h
  obtain ⟨_, -, dest, ⟨relative, -, offset, hoffset, hdest⟩, rfl⟩ := h
  have hoffset := checkedAdd_eq_some_iff.mp hoffset
  have hdest := checkedAdd_eq_some_iff.mp hdest
  rw [UInt64.ofNat_toNat]
  omega

/-- The chunk tasks of a file leave what is before the data. -/
theorem kept_encryptSourceFile (job : EncryptJob) (dek : ByteArr 32)
    (hbehind : ∀ part ∈ parts, part.1 + part.2.length ≤ job.dataStart.toNat) :
    Built (keeping fun w w' => Sealed temp job.output parts w → Sealed temp job.output parts w')
      (encryptSourceFile R dek job) := by
  have hlog : ∀ (w : World) (fs : List Error), Sealed temp job.output parts w →
      Sealed temp job.output parts { w with failures := fs } := fun _ _ hw => ⟨hw.place, hw.parts⟩
  have hunchanged : ∀ file, Built (keeping fun w w' => Sealed temp job.output parts w →
      Sealed temp job.output parts w') (ensureUnchanged job.snapshot file) := fun file =>
    .bind (kept_reading hlog) fun _ => (kept_require hlog _).built
  unfold encryptSourceFile
  refine .bind (kept_context (kept_reading hlog)) fun file => .bind (hunchanged file) fun _ => ?_
  refine .bind (kept_require hlog _).built fun key => ?_
  refine .bind (.parForEach fun k _ => ?_) fun _ => hunchanged file
  unfold encryptStoredChunk
  refine .bind (kept_check hlog) fun _ _ => .bind (kept_require hlog _) fun span _ => ?_
  refine .bind (kept_context (kept_reading hlog)) fun buffer _ => ?_
  refine .bind (kept_require hlog _) fun write hwrite => ?_
  have hpos := encryptChunk_behind hwrite
  refine .bind (kept_perform (fun i w fs hw => hw.writeAllAt (fun part hpart => ?_) i fs)
    fun _ _ _ _ _ => trivial) fun _ _ => kept_onControl fun w hw => ⟨hw.place, hw.parts⟩
  exact Nat.le_trans (hbehind part hpart) hpos

/-- The header and the index, where they are written. -/
def sealedParts (prepared : Prepared) : List FileWrite :=
  [(0, prepared.header.image), (headerSize, prepared.encryptedIndex)]

/-- **The container holds its header and its index.** -/
theorem holds_writeContainer
    (hsize : prepared.header.indexSize.toNat = prepared.encryptedIndex.length) :
    Holds (fun _ => True) (Sealed temp n []) (writeContainer R prepared n)
      (fun _ => Sealed temp n (sealedParts prepared)) fun _ _ => True := by
  unfold writeContainer
  refine .bind (holds_requires Sealed.stable _) fun dataStart => .assume fun hdataStart => ?_
  refine .bind (holds_requires Sealed.stable _) fun containerSize => .assume fun _ => ?_
  refine .bind (Q := fun _ => Sealed temp n []) ?_ fun _ => ?_
  · refine holds_perform Sealed.stable (fun _ _ _ _ _ _ => trivial) fun i w _ w' hw hop => ?_
    obtain ⟨-, rfl⟩ := Prod.mk.inj (Route.io_ok hop)
    exact ⟨hw.place, nofun⟩
  refine .bind (holds_requires Sealed.stable _) fun image => .assume fun himage => ?_
  obtain rfl := Except.ok.inj ((serializeHeader_eq _).symm.trans himage)
  refine .bind (Sealed.holds_write nofun) fun _ => ?_
  refine .bind (Sealed.holds_write fun part hpart => ?_) fun _ => ?_
  · rw [List.mem_singleton.mp hpart, length_image]
    exact Nat.le_refl _
  · have hdataStart := checkedAdd_eq_some_iff.mp (ofOption_eq_ok.mp hdataStart)
    have hheader : (UInt64.ofNat headerSize).toNat = headerSize := by decide
    have hbehind : ∀ part ∈ sealedParts prepared, part.1 + part.2.length ≤ dataStart.toNat := by
      intro part hpart
      rcases List.mem_pair.mp hpart with rfl | rfl
      · rw [length_image]
        omega
      · dsimp only
        omega
    have hlog : ∀ (w : World) (fs : List Error), Sealed temp n (sealedParts prepared) w →
        Sealed temp n (sealedParts prepared) { w with failures := fs } :=
      fun _ _ hw => ⟨hw.place, hw.parts⟩
    refine (holds_keeping (P := Sealed temp n (sealedParts prepared)) (V := fun _ => True) ?_
      Sealed.stable).conseq (fun w hw => ?_) (fun _ _ h => h.2) fun _ _ h => h
    · refine Yields.bind (kept_newTracker fun w c hw => ⟨hw.place, hw.parts⟩) fun progress _ => ?_
      refine .bind (.parForEach fun source _ => ?_) fun _ _ => kept_reading hlog
      refine .bind (kept_check hlog) fun _ _ => .bind (kept_require hlog _) fun entry _ => ?_
      exact kept_encryptSourceFile ⟨source.2, entry, _, _, n, progress⟩ _ hbehind
    · exact hw

/-! ## Opening it again -/

/-- A header whose only keyslot opens with the password unlocks the key in it. -/
theorem unlock_of_opens {W : Type} {C : Crypto Key W} (hC : C.Correct) {h : Header W}
    {password : String} {dek : ByteArr 32} {found : UnlockResult} (hfirst : h.slot0.generation = 1)
    (hsecond : h.slot1.generation = 0) (ho : Opens C h h.slot0 password dek)
    (hfound : unlock C h password = .ok found) : found = .unlocked dek := by
  obtain ⟨kek, hkek, hwrap⟩ := ho
  have hcandidates : candidates h = [h.slot0] := by
    have hfilter : h.slots.filter (·.generation > 0) = [h.slot0] := by
      show [h.slot0, h.slot1].filter _ = _
      rw [List.filter_cons_of_pos (by rw [hfirst]; decide),
        List.filter_cons_of_neg (by rw [hsecond]; decide), List.filter_nil]
    rw [candidates, hfilter]
    exact List.mergeSort_singleton _
  have hslots : unlockSlots C h password [h.slot0] = .ok (some dek) := by
    have hdek : ByteArr.ofList? 32 dek.val = some dek := ByteArr.ofList?_eq_some.mpr rfl
    rw [unlockSlots, hkek, ok_bind, hC.unwrap_wrap hwrap, Option.bind_some, hdek]
  rw [unlock, hcandidates, hslots, bind_eq_ok] at hfound
  obtain ⟨_, _, hok⟩ := hfound
  exact (Except.ok.inj hok).symm

/-- The index that has been opened is the one of the scan. -/
def Reopened (R : Reader Key) (prepared : Prepared) (opened : OpenedFile) : Prop :=
  validateIndex R.order R.os opened.header ⟨prepared.scan.entries⟩ = .ok opened.index

theorem holds_readHeaderFrom :
    Holds (fun _ => True) (Sealed temp n (sealedParts prepared))
      (readHeaderFrom (.file (.own n)))
      (fun header w => header = prepared.header ∧ Sealed temp n (sealedParts prepared) w)
      fun _ _ => True := by
  have himage : ∀ w b, Sealed temp n (sealedParts prepared) w →
      V2.readExactAt (w.fs.inodes (.own n)).content 0 (UInt64.ofNat headerSize) = .ok b →
        b = prepared.header.image := by
    intro w b hw hread
    have hpart := hw.parts _ List.mem_cons_self
    rw [length_image] at hpart
    exact Option.some.inj ((readExactAt_eq_ok.mp hread).symm.trans hpart)
  unfold readHeaderFrom
  refine .bind (.mapError (holds_reads Sealed.stable himage)) fun bytes => .assume fun hbytes => ?_
  refine .bind (.mapError (holds_requires Sealed.stable _)) fun header => .assume fun hheader => ?_
  subst hbytes
  have hdecode : Header.decode prepared.header.image =
      some (prepared.header, List.replicate (headerSize - prepared.header.encode.length) 0) :=
    reads_header prepared.header _
  obtain rfl := Option.some.inj (hdecode.symm.trans (ofOption_eq_ok.mp hheader))
  refine .bind (Q := fun _ => Sealed temp n (sealedParts prepared)) ?_ fun len => ?_
  · refine holds_perform Sealed.stable (fun _ _ _ _ _ _ => trivial) fun i w a w' hw hop => ?_
    rw [(reading_ok hop).2]
    exact hw
  · refine .bind (holds_requires Sealed.stable _) fun _ => .assume fun _ => ?_
    exact .pure fun w hw => ⟨rfl, hw⟩

/-- **The container opens to the index of its scan.** -/
theorem holds_openStored (hC : R.crypto.Correct) (hK : R.codec.Lawful)
    (hw : Written R req prepared)
    (hsize : prepared.header.indexSize.toNat = prepared.encryptedIndex.length) :
    Holds (fun _ => True) (Sealed temp n (sealedParts prepared))
      (openStored R temp req.password) (fun opened _ => Reopened R prepared opened)
      fun _ _ => True := by
  obtain ⟨serialized, key, hencode, hkey, hencrypt⟩ := hw.index
  have hindex : ∀ w b, Sealed temp n (sealedParts prepared) w →
      V2.readExactAt (w.fs.inodes (.own n)).content (UInt64.ofNat headerSize)
        prepared.header.indexSize = .ok b → b = prepared.encryptedIndex := by
    intro w b hw hread
    have hpart := hw.parts _ (List.mem_cons_of_mem _ List.mem_cons_self)
    rw [readExactAt_eq_ok, hsize] at hread
    exact Option.some.inj (hread.symm.trans hpart)
  unfold openStored
  refine .bind (holds_reads (a := FsNode.file (.own n)) Sealed.stable ?_) fun file =>
    .assume fun hfile => ?_
  · intro w node hw hnode
    have hfollow : w.fs.follow 41 temp = some (.file (.own n)) := by
      rw [Fs.follow, hw.place]
    rw [hfollow] at hnode
    exact (Except.ok.inj hnode).symm
  subst hfile
  refine .bind holds_readHeaderFrom fun header => .assume fun hheader => ?_
  subst hheader
  refine .bind (holds_requires Sealed.stable _) fun found => .assume fun hfound => ?_
  obtain rfl := unlock_of_opens hC hw.first hw.second hw.opens hfound
  refine .bind (Q := fun dek w => dek = prepared.dek ∧ Sealed temp n (sealedParts prepared) w)
    (.pure fun w hw => ⟨rfl, hw⟩) fun dek => .assume fun hdek => ?_
  subst hdek
  unfold openIndex
  refine .bind (holds_reads Sealed.stable hindex) fun encrypted => .assume fun hencrypted => ?_
  subst hencrypted
  refine .bind (holds_requires Sealed.stable _) fun key' => .assume fun hkey' => ?_
  obtain rfl : key = key' := Except.ok.inj (hkey.symm.trans hkey')
  refine .bind (.mapError (holds_requires Sealed.stable _)) fun serialized' => .assume fun hs => ?_
  obtain rfl : serialized = serialized' := by
    have hdecrypt := hC.decrypt_encrypt hencrypt
    exact Option.some.inj (hdecrypt.symm.trans (ofOption_eq_ok.mp hs))
  refine .bind (.mapError (holds_requires Sealed.stable _)) fun index => .assume fun hi => ?_
  obtain rfl := Option.some.inj ((hK hencode).symm.trans (ofOption_eq_ok.mp hi))
  refine .bind (holds_requires Sealed.stable _) fun v => .assume fun hv => ?_
  refine .bind (holds_requires Sealed.stable _) fun dataStart => .assume fun _ => ?_
  exact .pure fun _ _ => hv

end Pack

end CipherFS
