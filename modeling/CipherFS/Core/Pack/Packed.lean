import CipherFS.Core.Observing
import CipherFS.Core.Pack.Filled
import CipherFS.Core.Progress.Exact
import CipherFS.Core.V2.OpenBytes

/-!
# What packing publishes

The container that is renamed to the output is the one that has been filled: it
opens with the password to the index of the scan, and every source is in it. No
step between the last write and the rename changes it.
-/

namespace CipherFS

open WorldProg Prog V2 Result Tiling
open Extract (Holds)

namespace Pack

variable {Key : Type} {R : Reader Key} {req : PackRequest} {prepared : Prepared} {scan : Scan}
  {dataStart : UInt64} {n : Nat} {v : Inode} {w w' : World} {temp place : Path} {a : EnvAction}
  {content : Bytes} {o : OpenedContainer (ByteArr 48)}

/-! ## Opening the sealed parts -/

/-- What the password opens in a container with the header and the index. -/
theorem openBytes_sealed (hC : R.crypto.Correct) (hK : R.codec.Lawful)
    (hw : Written R req prepared)
    (hsize : prepared.header.indexSize.toNat = prepared.encryptedIndex.length)
    (hparts : ∀ part ∈ sealedParts prepared, readAt content part.1 part.2.length = some part.2)
    (h : openBytes R content req.password = .ok o) :
    validateIndex R.order R.os prepared.header ⟨prepared.scan.entries⟩ = .ok o.index ∧
      dataStartOf prepared.header = .ok o.dataStart ∧
      o = ⟨content, prepared.header, o.index, prepared.dek, o.dataStart⟩ := by
  obtain ⟨serialized, key, hencode, hkey, hencrypt⟩ := hw.index
  have himage := hparts _ List.mem_cons_self
  have hindex := hparts _ (List.mem_cons_of_mem _ List.mem_cons_self)
  rw [length_image] at himage
  simp only [openBytes, bind_eq_ok, ofOption_eq_ok, readExactAt_eq_ok] at h
  obtain ⟨bytes, hbytes, header, hheader, _, -, found, hfound, dek, hdek, encrypted, hencrypted,
    key', hkey', serialized', hserialized, index, hdecode, ix, hvalid, start, hstart, ho⟩ := h
  obtain rfl : bytes = prepared.header.image := Option.some.inj (hbytes.symm.trans himage)
  have hreads : Header.decode prepared.header.image =
      some (prepared.header, List.replicate (headerSize - prepared.header.encode.length) 0) :=
    reads_header prepared.header _
  obtain rfl := Option.some.inj (hreads.symm.trans hheader)
  obtain rfl := unlock_of_opens hC hw.first hw.second hw.opens hfound
  obtain rfl := Except.ok.inj hdek
  rw [hsize] at hencrypted
  obtain rfl := Option.some.inj (hencrypted.symm.trans hindex)
  obtain rfl := Except.ok.inj (hkey.symm.trans hkey')
  obtain rfl : serialized = serialized' :=
    Option.some.inj ((hC.decrypt_encrypt hencrypt).symm.trans (ofOption_eq_ok.mp hserialized))
  obtain rfl := Option.some.inj ((hK hencode).symm.trans hdecode)
  obtain rfl := Except.ok.inj ho
  exact ⟨hvalid, hstart, rfl⟩

/-! ## The packed container -/

/-- At the path is a file of the run that opens with the password to the index of
the scan, and that stores every source as its snapshot has it. -/
structure Packed (R : Reader Key) (password : String) (scan : Scan) (place : Path) (n : Nat)
    (o : OpenedContainer (ByteArr 48)) (w : World) : Prop where
  place : w.fs.tree place = some (.file (.own n))
  content : (w.fs.inodes (.own n)).content = o.file
  opens : openBytes R o.file password = .ok o
  index : o.index = indexOf scan.entries
  accepted : AcceptedIndex R.os o.header scan.entries
  stored : ∀ s ∈ scan.sources, SourceStored R scan (fun _ => o) s w

theorem Packed.env {password : String} (hw : Packed R password scan place n o w)
    (h : w.env a = some w') : Packed R password scan place n o w' :=
  { hw with
    place := World.env_keeps h hw.place
    content := by
      rw [(World.interferes_of_env h).own n]
      exact hw.content
    stored := by
      intro s hs
      obtain ⟨e, m, v, he, hprint, hstored⟩ := hw.stored s hs
      exact ⟨e, m, v, he, hprint, hstored.env h⟩ }

theorem Packed.stable {password : String} :
    World.sharing.Stable (Packed R password scan place n o) :=
  World.stable_env fun _ _ _ h hw => hw.env h

theorem Packed.ofFiles {password : String} : OfFiles (Packed R password scan place n o) := by
  intro w w' h hw
  refine { hw with place := ?_, content := ?_, stored := ?_ }
  · rw [h.fs]
    exact hw.place
  · rw [h.fs]
    exact hw.content
  · intro s hs
    obtain ⟨e, m, v, he, hprint, hstored⟩ := hw.stored s hs
    exact ⟨e, m, v, he, hprint, hstored.own h.leaves⟩

theorem own_of_sharing (h : World.sharing.rel w w') (n : Nat) :
    w'.fs.inodes (.own n) = w.fs.inodes (.own n) := by
  induction h with
  | refl => rfl
  | tail _ hstep ih =>
      obtain ⟨a, ha⟩ := hstep
      rw [(World.interferes_of_env ha).own n]
      exact ih

/-- The filled container is opened from one content. -/
theorem reads_filled {ix : ValidatedIndex} :
    ReadsFrom temp (.own n) (fun w c => c = (w.fs.inodes (.own n)).content)
      (Filled R prepared dataStart ix temp n) where
  stable := Filled.stable
  found w hw := by rw [Fs.follow, hw.sealed.place]
  current _ _ := rfl
  grow w w' b _ hrel hb := by
    rw [own_of_sharing hrel]
    exact hb
  logged w fs hw := ⟨hw.observed (observes_log w fs), fun _ hb => hb⟩

/-- **The container that the self-verification opens is the packed one.** -/
theorem holds_reopen (hC : R.crypto.Correct) (hK : R.codec.Lawful) (hw : Written R req prepared)
    (h : Laid R.os prepared) (hstart : dataStartOf prepared.header = .ok dataStart) :
    Holds (fun _ => True)
      (Filled R prepared dataStart (indexOf prepared.scan.entries) temp n)
      (openStored R temp req.password)
      (fun _ w => ∃ o, Packed R req.password prepared.scan temp n o w) fun _ _ => True := by
  refine (reads_filled.holds_openStored R req.password).conseq (fun _ hw => hw) ?_ fun _ _ he => he
  rintro opened w ⟨-, hfilled, hknows⟩
  have hopens : openBytes R (w.fs.inodes (.own n)).content req.password =
      .ok (opened.withContent (w.fs.inodes (.own n)).content) := hknows _ fun _ hc => hc
  obtain ⟨hvalid, hstart', hsame⟩ :=
    openBytes_sealed hC hK hw h.indexSize hfilled.sealed.parts hopens
  have hindex := (validateIndex_eq_ok.mp hvalid).2
  obtain heq := Except.ok.inj (hstart.symm.trans hstart')
  have hopened : opened.withContent (w.fs.inodes (.own n)).content =
      prepared.opened dataStart (indexOf prepared.scan.entries) n w := by
    rw [hsame, ← heq, hindex]
    rfl
  rw [hopened] at hopens
  exact ⟨_, hfilled.sealed.place, rfl, hopens, rfl, h.accepted, hfilled.stored⟩

/-! ## From the temporary path to the output -/

theorem Sourced.ofFiles : OfFiles (Sourced scan) := fun _ _ h hw => hw.own h.leaves

theorem Sourced.stable : World.sharing.Stable (Sourced scan) :=
  World.stable_env fun _ _ _ h hw => hw.env h

/-- A step that only observes keeps any packed container. -/
theorem holds_packed {α : Type} {V : α → Prop} {m : WorldProg α} (hm : Yields observing V m)
    {password : String} :
    Holds (fun _ => True) (fun w => ∃ o, Packed R password scan place n o w) m
      (fun _ w => ∃ o, Packed R password scan place n o w) fun _ _ => True := by
  refine (holds_observing hm ?_ ?_).conseq (fun _ hw => hw) (fun _ _ hw => hw.2) fun _ _ he => he
  · rintro w w' h ⟨o, hw⟩
    exact ⟨o, Packed.ofFiles w w' h hw⟩
  · apply World.stable_env
    rintro w a w' h ⟨o, hw⟩
    exact ⟨o, hw.env h⟩

theorem holds_createOwn :
    Holds (fun _ => True) (Sourced scan) (perform (Op.createNew temp))
      (fun n w => Sealed temp n [] w ∧ Sourced scan w) fun _ _ => True := by
  refine holds_perform Sourced.stable (fun _ _ _ _ _ _ => trivial) ?_
  intro i w n w' hw hop
  have hop := Route.io_ok hop
  split at hop
  · cases (Prod.mk.inj hop).1
  · obtain ⟨hn, rfl⟩ := Prod.mk.inj hop
    obtain rfl := Except.ok.inj hn
    have hinodes : ∀ m, Function.update w.fs.inodes (.own w.nextOwn) ⟨[], i.time⟩ (.other m) =
        w.fs.inodes (.other m) := Extract.inodes_other
    exact ⟨⟨FileTree.put_self, nofun⟩, hw.own ⟨hinodes, rfl, rfl, rfl⟩⟩

/-- **The container before the rename.** -/
theorem holds_stage (hC : R.crypto.Correct) (hK : R.codec.Lawful) (hw : Written R req prepared)
    (h : Laid R.os prepared) (hstart : dataStartOf prepared.header = .ok dataStart) :
    Holds (fun _ => True) (Sourced prepared.scan) (stageContainer R req prepared temp)
      (fun _ w => ∃ n o, Packed R req.password prepared.scan temp n o w) fun _ _ => True := by
  unfold stageContainer
  refine .bind (.mapError holds_createOwn) fun n => ?_
  have hbegin : World.sharing.Stable fun w => Sealed temp n [] w ∧ Sourced prepared.scan w := by
    apply World.stable_env
    rintro w a w' ha ⟨hw, hsourced⟩
    exact ⟨Sealed.stable w w' hw (.single ⟨a, ha⟩), hsourced.env ha⟩
  refine .bind (Q := fun _ w => Sealed temp n [] w ∧ Sourced prepared.scan w) ?_ fun _ => ?_
  · refine (holds_observing (observes_event _) ?_ hbegin).conseq (fun _ hw => hw)
      (fun _ _ hw => hw.2) fun _ _ he => he
    rintro w w' hobs ⟨hw, hsourced⟩
    refine ⟨⟨?_, nofun⟩, hsourced.own hobs.leaves⟩
    rw [hobs.fs]
    exact hw.place
  refine .bind (holds_fill hC h (indexOf prepared.scan.entries) hstart) fun _ => ?_
  refine .pre (P := Filled R prepared dataStart (indexOf prepared.scan.entries) temp n) ?_
    fun _ hw => hw.1
  have hfilled : ∀ {m : WorldProg Unit}, Built observing m → Holds (fun _ => True)
      (Filled R prepared dataStart (indexOf prepared.scan.entries) temp n) m
      (fun _ => Filled R prepared dataStart (indexOf prepared.scan.entries) temp n)
      fun _ _ => True := by
    intro m hm
    refine (holds_observing hm ?_ Filled.stable).conseq (fun _ hw => hw) (fun _ _ hw => hw.2)
      fun _ _ he => he
    intro w w' hobs hw
    exact hw.observed hobs
  refine .bind (hfilled observes_check) fun _ => ?_
  refine .bind (Q := fun _ w => ∃ o, Packed R req.password prepared.scan temp n o w) ?_ fun _ => ?_
  · unfold selfVerify
    refine .bind (hfilled (observes_event _)) fun _ => ?_
    refine .bind (.mapError (holds_reopen hC hK hw h hstart)) fun opened => ?_
    refine .bind (holds_packed observes_check) fun _ => ?_
    refine .bind (holds_packed (observes_event _)) fun _ => ?_
    refine .bind (holds_packed (observes_event _)) fun _ => ?_
    exact .mapError (holds_packed observes_verifyAll)
  · refine .bind (holds_packed observes_check) fun _ => ?_
    exact (holds_packed observes_check).conseq (fun _ hw => hw) (fun _ w hw => ⟨n, hw⟩)
      fun _ _ he => he

theorem observes_syncParent (p : Path) : Built observing (syncParent p) :=
  .bind observes_reading fun _ => observes_reading

/-- **The rename takes the container to the output as it is.** -/
theorem holds_publish {password : String} :
    Holds (fun _ => True) (fun w => ∃ o, Packed R password scan temp n o w)
      (publishContainer req temp) (fun _ w => ∃ o, Packed R password scan req.output n o w)
      fun _ _ => True := by
  unfold publishContainer
  refine .bind (holds_packed (observes_event _)) fun _ => ?_
  refine .bind (holds_packed (observes_event _)) fun _ => ?_
  refine .bind (Q := fun _ w => ∃ o, Packed R password scan req.output n o w)
    (.mapError (holds_perform ?_ (fun _ _ _ _ _ _ => trivial) ?_)) fun _ => ?_
  · apply World.stable_env
    rintro w a w' ha ⟨o, hw⟩
    exact ⟨o, hw.env ha⟩
  · rintro i w _ w' ⟨o, hw⟩ hop
    have hop := Route.io_ok hop
    dsimp only at hop
    rw [hw.place] at hop
    cases hvacant : w.fs.vacant req.output with
    | error e =>
        rw [hvacant] at hop
        cases (Prod.mk.inj hop).1
    | ok u =>
        rw [hvacant] at hop
        obtain ⟨-, rfl⟩ := Prod.mk.inj hop
        refine ⟨o, { hw with place := ?_, content := hw.content, stored := ?_ }⟩
        · have hmoved : w.fs.tree.move temp req.output (req.output ++ []) = w.fs.tree (temp ++ []) :=
            FileTree.move_append []
          rw [List.append_nil, List.append_nil] at hmoved
          exact hmoved.trans hw.place
        · intro s hs
          obtain ⟨e, m, v, he, hprint, hstored⟩ := hw.stored s hs
          exact ⟨e, m, v, he, hprint, hstored.own ⟨fun _ => rfl, rfl, rfl, rfl⟩⟩
  · refine .bind (Q := fun _ w => ∃ o, Packed R password scan req.output n o w)
      (holds_packed (observes_syncParent _).attempt) fun synced => ?_
    cases synced with
    | ok _ => exact holds_packed (observes_event _)
    | error e =>
        exact .bind (holds_packed (observes_event _)) fun _ => holds_packed (observes_event _)

/-! ## The whole operation -/

variable {walk : List (Result Path)} {fs : Fs} {nextOther : Nat}

theorem Ambient.ofFiles : OfFiles Ambient := by
  intro w w' h hw
  refine ⟨?_, hw.recorded.own h.leaves⟩
  rw [h.fs, h.next]
  exact hw.theirs

theorem Ambient.stable : World.sharing.Stable Ambient :=
  World.stable_env fun _ _ _ h hw => hw.env h

theorem Scanning.ofFiles {sourceDir : Path} : OfFiles (Scanning os sourceDir walk scan) := by
  rintro w w' h ⟨hambient, pathOf, hs, htraced⟩
  refine ⟨Ambient.ofFiles w w' h hambient, pathOf, hs, ?_⟩
  refine { htraced with directories := ?_, sources := ?_ }
  · rw [h.fs]
    exact htraced.directories
  · intro s hs
    obtain ⟨e, he, hid, hpath, m, v, hplace, hshot, hsize⟩ := htraced.sources s hs
    refine ⟨e, he, hid, hpath, m, v, ?_, hshot.own h.leaves, hsize.own h.leaves⟩
    rw [h.fs]
    exact hplace

/-- What follows the scan leaves what is known of it. -/
theorem holds_prepareInPool (hwalk : walk.Nodup) :
    Holds (fun _ => True) Ambient (prepareInPool R walk req)
      (fun prepared => Scanning R.os req.source walk prepared.scan) fun _ _ => True := by
  have hambient : ∀ {α : Type} {m : WorldProg α}, Built observing m →
      Holds (fun _ => True) Ambient m (fun _ => Ambient) fun _ _ => True := fun hm =>
    (holds_observing hm Ambient.ofFiles Ambient.stable).conseq (fun _ hw => hw)
      (fun _ _ hw => hw.2) fun _ _ he => he
  have hscanned : ∀ {α : Type} {scan : Scan} {m : WorldProg α}, Built observing m →
      Holds (fun _ => True) (Scanning R.os req.source walk scan) m
        (fun _ => Scanning R.os req.source walk scan) fun _ _ => True := fun hm =>
    (holds_observing hm Scanning.ofFiles Scanning.stable).conseq (fun _ hw => hw)
      (fun _ _ hw => hw.2) fun _ _ he => he
  unfold prepareInPool prepare
  refine .bind (.mapError (hambient observes_reading)) fun _ => ?_
  refine .bind (hambient observes_inspectRequest) fun _ => ?_
  refine .bind (hambient (observes_event _)) fun _ => .bind (hambient (observes_event _)) fun _ => ?_
  refine .bind (holds_scanSource hwalk) fun scan => ?_
  refine .bind (hscanned (observes_event _)) fun _ => ?_
  refine .bind (hscanned (observes_serializeIndex _)) fun serialized => ?_
  refine .bind (hscanned (observes_makeHeader _ _)) fun made => ?_
  refine .bind (hscanned (observes_require _).built) fun key => ?_
  refine .bind (hscanned (observes_require _).built) fun encrypted => ?_
  refine .bind (hscanned (observes_require _).built) fun _ => ?_
  exact .pure fun _ hw => hw

/-- What is packed is a directory. -/
theorem holds_source : Holds (fun _ => True) (fun _ => True) (prepareInPool R walk req)
    (fun _ w => w.fs.tree req.source = some .directory) fun _ _ => True := by
  have hstable : World.sharing.Stable fun w => w.fs.tree req.source = some .directory :=
    World.stable_env fun _ _ _ h hw => World.env_keeps h hw
  have hkept : ∀ {α : Type} {m : WorldProg α}, Built (confined fun _ => False) m →
      Holds (fun _ => True) (fun w => w.fs.tree req.source = some .directory) m
        (fun _ w => w.fs.tree req.source = some .directory) fun _ _ => True := by
    intro α m hm
    exact (holds_confined hm hstable fun _ _ hw h => h.directories _ hw).conseq (fun _ hw => hw)
      (fun _ _ hw => hw.2) fun _ _ _ => trivial
  have hany : ∀ {α : Type} {m : WorldProg α}, Built (confined fun _ => False) m →
      Holds (fun _ => True) (fun _ => True) m (fun _ _ => True) fun _ _ => True := by
    intro α m hm
    exact (holds_confined hm (fun _ _ _ _ => trivial) fun _ _ _ _ => trivial).conseq
      (fun _ hw => hw) (fun _ _ _ => trivial) fun _ _ _ => trivial
  have hinspect : Holds (fun _ => True) (fun _ => True) (inspectRequest req)
      (fun _ w => w.fs.tree req.source = some .directory) fun _ _ => True := by
    unfold inspectRequest
    refine .bind (hany built_check) fun _ => ?_
    refine .bind (Q := fun node w => w.fs.tree req.source = some node)
      (.mapError (holds_perform (fun _ _ _ _ => trivial) (fun _ _ _ _ _ _ => trivial) ?_))
      fun node => ?_
    · intro i w node w' _ hop
      obtain ⟨hnode, rfl⟩ := reading_ok hop
      cases hfound : w'.fs.tree req.source with
      | none =>
          rw [hfound] at hnode
          cases hnode
      | some found =>
          rw [hfound] at hnode
          rw [Except.ok.inj hnode]
    · have hsame : World.sharing.Stable fun w => w.fs.tree req.source = some node :=
        World.stable_env fun _ _ _ h hw => World.env_keeps h hw
      refine .bind (holds_requires hsame _) fun _ => .assume fun hdirectory => ?_
      obtain rfl : node = .directory := not_not.mp (rejectIf_eq_ok.mp hdirectory)
      exact .bind (hkept (built_require _)) fun _ => hkept built_check
  unfold prepareInPool prepare
  refine .bind (.mapError (hany built_sync)) fun _ => .bind hinspect fun _ => ?_
  refine .bind (hkept (built_event rfl)) fun _ => .bind (hkept (built_event rfl)) fun _ => ?_
  refine .bind (hkept (built_scanSource R.os walk req.source)) fun scan => ?_
  refine .bind (hkept (built_event rfl)) fun _ => ?_
  have hindex : Built (confined fun _ => False) (serializeIndex R req scan.entries) := by
    unfold serializeIndex
    refine (built_require _).bind fun serialized => (built_require _).bind fun size => ?_
    exact (built_require _).bind fun _ => .pure _
  refine .bind (hkept hindex) fun serialized => ?_
  refine .bind (hkept (built_makeHeader R req _ scan)) fun made => ?_
  refine .bind (hkept (built_require _)) fun key => .bind (hkept (built_require _)) fun index => ?_
  exact .bind (hkept (built_require _)) fun _ => .pure fun _ hw => hw

/-- The header is made for the scan. -/
theorem yields_headerOf :
    Yields (confined fun _ => False) (fun prepared : Prepared =>
      prepared.header.entryCount = UInt64.ofNat prepared.scan.entries.length ∧
        prepared.header.dataSize = prepared.scan.dataOffset) (prepareInPool R walk req) := by
  unfold prepareInPool prepare
  refine .bind (built_context built_sync) fun _ _ => .bind (built_inspectRequest req) fun _ _ => ?_
  refine .bind (built_event rfl) fun _ _ => .bind (built_event rfl) fun _ _ => ?_
  refine .bind (built_scanSource _ _ _) fun scan _ => .bind (built_event rfl) fun _ _ => ?_
  have hserialize : ∀ entries, Built (confined fun _ => False) (serializeIndex R req entries) := by
    intro entries
    unfold serializeIndex
    refine .bind (built_require _) fun _ => .bind (built_require _) fun _ => ?_
    exact .bind (built_require _) fun _ => .pure _
  refine .bind (hserialize _) fun serialized _ => ?_
  refine .bind (yields_makeHeader R req _ scan) fun made hmade => ?_
  refine .bind (built_require _) fun key _ => .bind (built_require _) fun encrypted _ => ?_
  exact .bind (built_require _) fun _ _ => .pure hmade

theorem Scanned.laid {seen : List (Result Path)} {pathOf : UInt64 → Path}
    (hs : Scanned R.os req.source seen prepared.scan pathOf) (hw : Written R req prepared)
    (hC : R.crypto.Correct) (hB : R.codec.Bounded)
    (hheader : prepared.header.entryCount = UInt64.ofNat prepared.scan.entries.length ∧
      prepared.header.dataSize = prepared.scan.dataOffset) : Laid R.os prepared where
  tally := hw.tally
  accepted := hs.acceptedIndex hheader.1 hheader.2
  layout := by
    rw [hheader.2]
    exact hs.layout
  indexSize := hw.length hC hB

theorem Scanning.sourced {sourceDir : Path} (hw : Scanning os sourceDir walk scan w)
    (htally : Tally scan) : Sourced scan w := by
  obtain ⟨hambient, pathOf, -, htraced⟩ := hw
  refine ⟨hambient.recorded, ?_⟩
  intro s hs
  obtain ⟨e, he, hid, -, m, v, -, hshot, hsize⟩ := htraced.sources s hs
  refine ⟨m, v, hshot, ?_⟩
  intro e' he'
  rw [← hid, htally.entryById_eq he] at he'
  rw [← Option.some.inj he']
  exact hsize

/-- The index is far too short for the data to start beyond 64 bits. -/
theorem Written.dataStart_ok (hw : Written R req prepared) (hC : R.crypto.Correct)
    (hB : R.codec.Bounded) : ∃ dataStart, dataStartOf prepared.header = .ok dataStart := by
  obtain ⟨serialized, key, hencode, -, hencrypt⟩ := hw.index
  have hserialized := hB _ _ hencode
  have hlen := hC.length_encrypt hencrypt
  have hsize := hw.length hC hB
  have hheader : (UInt64.ofNat headerSize).toNat = 4096 := by decide
  refine ⟨UInt64.ofNat headerSize + prepared.header.indexSize, ?_⟩
  rw [dataStartOf, ofOption_eq_ok, checkedAdd_eq_some_iff, UInt64.toNat_add]
  omega

theorem holds_dropTemp_any (temp : Path) :
    Holds (fun _ => True) (fun _ => True) (dropTemp temp) (fun _ _ => True) fun _ _ => True := by
  have hkept : Built (keeping fun _ _ => True → True) (dropTemp temp) :=
    .bind (kept_call fun _ _ _ => trivial) fun _ => .pure _
  exact (holds_keeping hkept fun _ _ _ _ => trivial).conseq (fun _ _ => trivial)
    (fun _ _ _ => trivial) fun _ _ he => he

/-- What `pack_inner` does with the header. -/
theorem holds_finish (hC : R.crypto.Correct) (hK : R.codec.Lawful) (hB : R.codec.Bounded)
    (hw : Written R req prepared) (h : Laid R.os prepared) :
    Holds (fun _ => True) (Sourced prepared.scan) (finish R req prepared)
      (fun _ w => ∃ n o, Packed R req.password prepared.scan req.output n o w) fun _ _ => True := by
  obtain ⟨dataStart, hstart⟩ := hw.dataStart_ok hC hB
  unfold finish
  refine .bind ((holds_observing observes_chooseTemporaryPath Sourced.ofFiles
    Sourced.stable).conseq (fun _ hw => hw) (fun _ _ hw => hw.2) fun _ _ he => he) fun temp => ?_
  refine .onError ?_ fun e => holds_dropTemp_any temp
  · refine .bind (holds_stage hC hK hw h hstart) fun _ => .exists fun n => ?_
    exact holds_publish.conseq (fun _ hw => hw) (fun _ _ hw => ⟨n, hw⟩) fun _ _ he => he

end Pack

end CipherFS
