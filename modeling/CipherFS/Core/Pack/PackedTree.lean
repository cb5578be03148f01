import CipherFS.Core.ContainerTree
import CipherFS.Core.Pack.Packed

/-!
# Packing takes a snapshot of the source

In every run of `pack` that ends well, whatever other processes do to the source
at the same time, the published container holds the paths of the walk and nothing
else, and each file in it is the beginning of one content that the file has had,
as long as a content of it was when it was scanned. A file with one content is
packed whole.
-/

namespace CipherFS

open WorldProg Prog V2 Result Tiling Extract

namespace Pack

variable {Key : Type} {R : Reader Key} {req : PackRequest} {prepared : Prepared} {scan : Scan}
  {walk : List (Result Path)} {fs : Fs} {nextOther n m : Nat} {sourceDir : Path} {v : Inode}
  {u w : World} {pathOf : UInt64 → Path} {o : OpenedContainer (ByteArr 48)} {e : Entry}
  {dataStart : UInt64} {labels : List (Label WorldInput EnvAction)}

/-! ## Paths -/

/-- The index puts an entry where the walk has found it. -/
theorem Scanned.entryPath_eq {W : Type} {header : Header W}
    (hs : Scanned os sourceDir walk scan pathOf)
    (haccepted : AcceptedIndex os header scan.entries) (he : e ∈ scan.entries) :
    entryPath (indexOf scan.entries) e = pathOf e.id := by
  have hv := extractable_indexOf haccepted
  have hvalues := haccepted.values_indexOf_perm .stored
  have hmem : ∀ x, x ∈ (indexOf scan.entries).entries.values ↔ x ∈ scan.entries := fun x =>
    hvalues.mem_iff
  induction hd : e.depth.toNat using Nat.strong_induction_on generalizing e with
  | _ d ih =>
      by_cases hid : e.id = 1
      · rw [(hv.root_path e ((hmem e).mpr he) hid).2, hid, hs.rootPath]
      · obtain ⟨p, hp, hpid, -, hdepth, hpath⟩ := hv.child e ((hmem e).mpr he) hid
        have hp := (hmem p).mp hp
        have hlt : p.depth.toNat < d := by
          rw [← hd]
          exact UInt32.lt_iff_toNat_lt.mp hdepth
        have hstands := hs.stands e he hid
        have hparent := (hs.directories _ _ hstands.parent).1
        rw [hpath, ih _ hlt hp rfl, hpid, hparent]
        exact List.dropLast_append_getLast? _ hstands.name

/-! ## Contents -/

/-- A content that has all chunks has all bytes. -/
theorem size_le (hfits : FileFits dataStart e)
    (h : ∀ k < e.chunkCount, k.toNat * 4194304 + e.chunkLen k ≤ v.content.length) :
    e.size.toNat ≤ v.content.length := by
  by_contra hlt
  have hpos : 0 < e.size.toNat := by omega
  let i := (e.size.toNat - 1) / 4194304
  have hi : i < Chunking.count 4194304 e.size.toNat := by
    rw [Chunking.lt_count_iff (by decide)]
    omega
  rw [← hfits.count] at hi
  have hindex : (UInt64.ofNat i).toNat = i :=
    UInt64.toNat_ofNat_of_lt' (Nat.lt_trans hi e.chunkCount.toNat_lt)
  have hle := h (UInt64.ofNat i) (UInt64.lt_iff_toNat_lt.mpr (by rwa [hindex]))
  simp only [Entry.chunkLen, Chunking.len, hindex] at hle
  omega

theorem StoredFrom.fileContent_eq (hw : StoredFrom R o e m v w) (hfits : FileFits dataStart e) :
    fileContent R.crypto o e = .ok (v.content.take e.size.toNat) :=
  V2.fileContent_eq hfits.count fun k hk => hw.chunks k (mem_chunkIndices.mp hk)

/-! ## The snapshot -/

/-- The container holds the source: every path of the walk and nothing else, and
of every file the first bytes of one content that it has had by the end, as many
as another one has. The names are those of a state `u` of the run. -/
structure HoldsSource (C : Crypto Key (ByteArr 48)) (o : OpenedContainer (ByteArr 48))
    (source : Path) (walk : List (Result Path)) (u w : World) : Prop where
  paths : ∀ p, (∃ x, o.Has C p x) ↔ p = [] ∨ .ok (source ++ p) ∈ walk
  readable : ∀ e ∈ o.index.entries.values, ∃ x, o.Shows C e x
  directory : ∀ p, o.Has C p .directory → u.fs.tree (source ++ p) = some .directory
  file : ∀ p content, o.Has C p (.file content) → ∃ m,
    u.fs.tree (source ++ p) = some (.file (.other m)) ∧ ∃ v ∈ w.versions m, ∃ v' ∈ w.versions m,
      v'.content.length ≤ v.content.length ∧ content = v.content.take v'.content.length

theorem Packed.holdsSource {password : String} {place : Path}
    (hw : Packed R password scan place n o w) (hu : Scanning R.os sourceDir walk scan u)
    (hroot : u.fs.tree sourceDir = some .directory) (htally : Tally scan) :
    HoldsSource R.crypto o sourceDir walk u w := by
  obtain ⟨-, pathOf, hs, htraced⟩ := hu
  have hvalues := hw.accepted.values_indexOf_perm .stored
  have hmem : ∀ x, x ∈ o.index.entries.values ↔ x ∈ scan.entries := by
    intro x
    rw [hw.index]
    exact hvalues.mem_iff
  have hpath : ∀ x ∈ scan.entries, entryPath o.index x = pathOf x.id := by
    intro x hx
    rw [hw.index]
    exact hs.entryPath_eq hw.accepted hx
  -- every file entry comes from a source, and has its content
  have hfile : ∀ x ∈ scan.entries, x.kind = .file → ∃ m v,
      u.fs.tree (sourceDir ++ pathOf x.id) = some (.file (.other m)) ∧
        StoredFrom R o x m v w := by
    intro x hx hk
    have hid : x.id ∈ scan.sources.map Prod.fst := by
      rw [htally.sources]
      exact List.mem_map_of_mem (List.mem_filter.mpr ⟨hx, Entry.isFile_iff.mpr hk⟩)
    obtain ⟨s, hsource, hsid⟩ := List.mem_map.mp hid
    obtain ⟨e, m, v, he, hprint, hstored⟩ := hw.stored s hsource
    rw [hsid, htally.entryById_eq hx] at he
    obtain rfl := Option.some.inj he
    obtain ⟨e', he', hid', hplace, m', v', hnode, hshot, -⟩ := htraced.sources s hsource
    obtain rfl := hw.accepted.eq_of_id_eq he' hx (hid'.trans hsid)
    have hsame := congrArg FileFingerprint.identity (hprint.symm.trans hshot.fingerprint)
    obtain rfl : m = m' := Ino.other.inj hsame
    rw [hplace] at hnode
    exact ⟨m, v, hnode, hstored⟩
  have hfits : ∀ x ∈ scan.entries, x.kind = .file → FileFits 0 x := by
    intro x hx hk
    refine hw.accepted.fileFits ?_ hx hk
    rw [UInt64.toNat_zero, Nat.zero_add]
    exact o.header.dataSize.toNat_lt
  have hshows : ∀ x ∈ scan.entries, ∃ object, o.Shows R.crypto x object := by
    intro x hx
    cases hk : x.kind with
    | directory => exact ⟨.directory, hk⟩
    | file =>
        obtain ⟨m, v, -, hstored⟩ := hfile x hx hk
        exact ⟨.file _, hk, hstored.fileContent_eq (hfits x hx hk)⟩
  refine ⟨?_, fun x hx => hshows x ((hmem x).mp hx), ?_, ?_⟩
  · intro p
    constructor
    · rintro ⟨_, e, he, rfl, -⟩
      have he := (hmem e).mp he
      by_cases hid : e.id = 1
      · rw [hpath e he, hid, hs.rootPath]
        exact .inl rfl
      · rw [hpath e he]
        exact .inr (hs.stands e he hid).walked
    · intro hp
      have hentry : ∃ e ∈ scan.entries, pathOf e.id = p := by
        rcases hp with rfl | hp
        · exact ⟨_, hs.root, hs.rootPath⟩
        · exact htraced.covered p hp
      obtain ⟨e, he, rfl⟩ := hentry
      obtain ⟨x, hx⟩ := hshows e he
      exact ⟨x, e, (hmem e).mpr he, hpath e he, hx⟩
  · rintro _ ⟨e, he, rfl, hk⟩
    have he := (hmem e).mp he
    rw [hpath e he]
    by_cases hid : e.id = 1
    · rw [hid, hs.rootPath, List.append_nil, hroot]
    · exact htraced.directories e he hid hk
  · rintro _ content ⟨e, he, rfl, hk, hcontent⟩
    have he := (hmem e).mp he
    obtain ⟨m, v, hnode, hstored⟩ := hfile e he hk
    obtain ⟨v', hv', hlen⟩ := hstored.size
    rw [hstored.fileContent_eq (hfits e he hk)] at hcontent
    rw [hpath e he]
    refine ⟨m, hnode, v, hstored.version, v', hv', ?_, ?_⟩
    · rw [hlen]
      exact size_le (hfits e he hk) hstored.within
    · rw [hlen]
      exact (Except.ok.inj hcontent).symm

/-- What a run that ends well leaves at the output, and what it has found before. -/
theorem packed_of_run (hC : R.crypto.Correct) (hK : R.codec.Lawful) (hB : R.codec.Bounded)
    (hwalk : walk.Nodup) (hfs : fs.Clean nextOther)
    (hrun : run (interleave World.env) ((execute R walk req).task, World.start fs nextOther)
      labels = some (.done, w)) :
    ∃ before after prepared u n o, labels = before ++ after ∧
      (prepareInPool R walk req).Executes World.env (World.start fs nextOther) before
        (.ok prepared) u ∧
      Packed R req.password prepared.scan req.output n o w ∧
      (∀ item ∈ walk, ∃ p, item = .ok (req.source ++ p)) ∧
      HoldsSource R.crypto o req.source walk u w := by
  have hyields : Yields (quietly (·.Outside .commit) .commit) (Written R req)
      (prepareInPool R walk req) := yields_prepareInPool (by decide) (by decide)
  have henv : ∀ v a v', World.env v a = some v' → World.sharing.rel v v' := fun _ a _ ha =>
    .single ⟨a, ha⟩
  rw [execute_eq] at hrun
  rcases hyields.passed hrun with ⟨before, after, prepared, u, rfl, hexec, hrest⟩ | ⟨hnot, -⟩
  swap
  · cases hnot
  have hwritten := hyields.of_executes hexec
  have hheader := yields_headerOf.of_executes hexec
  have hscan : Scanning R.os req.source walk prepared.scan u :=
    (holds_prepareInPool hwalk).at_result Scanning.stable henv (Ambient.start hfs)
      (fun l _ => l.uses_true) hexec
  have ⟨_, pathOf, hs, htraced⟩ := hscan
  have hlaid := hs.laid hwritten hC hB hheader
  have hkept : World.sharing.Stable fun w => w.fs.tree req.source = some .directory :=
    World.stable_env fun _ _ _ h hw => World.env_keeps h hw
  have hroot := holds_source.at_result hkept henv trivial (fun l _ => l.uses_true) hexec
  have hsafe := (holds_finish hC hK hB hwritten hlaid).safe (s := u) ?_
    (fun _ _ _ _ _ => trivial) (hscan.sourced hwritten.tally)
  · obtain ⟨hend, -⟩ := Task.Safe.run (B := fun _ => True) (I := fun _ => True) hsafe
      (fun v a v' _ ha => henv v a v' ha) ⟨fun _ _ _ _ => trivial, fun _ _ _ _ => trivial⟩ trivial
      (fun l _ => l.uses_true) hrest
    obtain ⟨n, o, hpacked⟩ := Task.Safe.of_done hend
    exact ⟨before, after, prepared, u, n, o, rfl, hexec, hpacked, htraced.items,
      hpacked.holdsSource hscan hroot hwritten.tally⟩
  · rintro v v' ⟨n, o, hv⟩ hrel
    exact ⟨n, o, Packed.stable v v' hv hrel⟩

end Pack

/-- Nothing is of a run yet. -/
theorem OperationRequest.sampleFs_clean : OperationRequest.sampleFs.Clean 1 := by
  refine ⟨?_, fun n => Nat.one_lt_two_pow (by decide)⟩
  intro p ino hp
  refine ⟨0, Nat.one_pos, ?_⟩
  simp only [OperationRequest.sampleFs, OperationRequest.sampleTree] at hp
  split at hp
  · cases hp
  · split at hp
    · exact (FsNode.file.inj (Option.some.inj hp)).symm
    · cases hp

namespace Pack

end Pack

end CipherFS
