import CipherFS.Core.Contents
import CipherFS.Core.Pack.Accepted
import CipherFS.Core.Progress.Reopen

/-!
# What the scan has seen of the source

The scan notes one content of every file that it lists, by its fingerprint, and
where it stood; and every path of the walk has an entry.
-/

namespace CipherFS.Pack

open WorldProg Prog V2 Result
open Extract (Holds)

variable {m : Nat} {v : Inode} {w w' : World} {a : EnvAction}

/-! ## Snapshots -/

/-- The fingerprint of a content. -/
def fingerprintOf (m : Nat) (v : Inode) : FileFingerprint :=
  ⟨UInt64.ofNat v.content.length, v.modified, .other m⟩

/-- A file with the fingerprint of one of its contents has that content. -/
theorem Seen.eq_of_fingerprint (hw : Seen m v w) (hr : Recorded w)
    (h : fingerprintOf m (w.fs.inodes (.other m)) = fingerprintOf m v) :
    w.fs.inodes (.other m) = v := by
  refine hw.once.resolve_right ?_
  intro hne
  refine hne (Prod.ext ?_ (congrArg FileFingerprint.modified h))
  have hlen := congrArg UInt64.toNat (congrArg FileFingerprint.len h)
  have hcurrent := hr.length m _ (hr.current m)
  have hv := hr.length m v hw.version
  simp only [fingerprintOf, UInt64.toNat_ofNat_of_lt' hcurrent, UInt64.toNat_ofNat_of_lt' hv] at hlen
  exact hlen

/-- A snapshot is of one content of one file. -/
structure Shot (snapshot : SourceSnapshot) (m : Nat) (v : Inode) (w : World) : Prop where
  fingerprint : snapshot.fingerprint = fingerprintOf m v
  seen : Seen m v w

/-! ## The source while it is scanned -/

/-- The run has no objects yet, and all contents are on record. -/
structure Ambient (w : World) : Prop where
  theirs : ∀ p ino, w.fs.tree p = some (.file ino) → ∃ m < w.nextOther, ino = .other m
  recorded : Recorded w

theorem Ambient.start {fs : Fs} {nextOther : Nat} (h : fs.Clean nextOther) :
    Ambient (World.start fs nextOther) where
  theirs := h.file
  recorded := {
    current := fun _ => List.mem_singleton_self _
    length := by
      intro m v hv
      rw [List.mem_singleton.mp hv]
      exact h.length m }

theorem Ambient.env (hw : Ambient w) (h : w.env a = some w') : Ambient w' where
  theirs p ino hp := by
    rcases World.env_file h hp with hold | hnew
    · obtain ⟨m, hm, rfl⟩ := hw.theirs p ino hold
      exact ⟨m, Nat.lt_of_lt_of_le hm (World.env_next h), rfl⟩
    · exact hnew
  recorded := hw.recorded.env h

/-- A length that a file has had. -/
def HadLength (m : Nat) (size : UInt64) (w : World) : Prop :=
  ∃ v ∈ w.versions m, v.content.length = size.toNat

theorem HadLength.env {size : UInt64} (hw : HadLength m size w) (h : w.env a = some w') :
    HadLength m size w' := by
  obtain ⟨v, hv, hsize⟩ := hw
  exact ⟨v, World.mem_versions_env h hv, hsize⟩

/-- What is known, in a state of the run, of the entries and the sources. -/
structure Traced (sourceDir : Path) (walked : List (Result Path)) (scan : Scan)
    (pathOf : UInt64 → Path) (w : World) : Prop where
  items : ∀ item ∈ walked, ∃ p, item = .ok (sourceDir ++ p)
  covered : ∀ p, .ok (sourceDir ++ p) ∈ walked → ∃ e ∈ scan.entries, pathOf e.id = p
  directories : ∀ e ∈ scan.entries, e.id ≠ 1 → e.kind = .directory →
    w.fs.tree (sourceDir ++ pathOf e.id) = some .directory
  sources : ∀ s ∈ scan.sources, ∃ e ∈ scan.entries, e.id = s.1 ∧
    s.2.path = sourceDir ++ pathOf e.id ∧
    ∃ m v, w.fs.tree s.2.path = some (.file (.other m)) ∧ Shot s.2 m v w ∧ HadLength m e.size w

theorem Shot.env {snapshot : SourceSnapshot} (hw : Shot snapshot m v w) (h : w.env a = some w') :
    Shot snapshot m v w' := ⟨hw.fingerprint, hw.seen.env h⟩

theorem Shot.own {snapshot : SourceSnapshot} (hw : Shot snapshot m v w) (h : Leaves w w') :
    Shot snapshot m v w' := ⟨hw.fingerprint, hw.seen.own h⟩

variable {os : Platform} {sourceDir path rel : Path} {walked : List (Result Path)} {scan scan' : Scan}
  {pathOf : UInt64 → Path} {place : Place} {e : Entry} {ino : Ino} {nextId : UInt64}

namespace Traced

theorem start (w : World) : Traced sourceDir [] .start (fun _ => []) w where
  items := nofun
  covered := nofun
  directories e he hid := by
    rw [List.mem_singleton.mp he] at hid
    exact absurd rfl hid
  sources := nofun

theorem env (hw : Traced sourceDir walked scan pathOf w) (h : w.env a = some w') :
    Traced sourceDir walked scan pathOf w' :=
  { hw with
    directories := fun e he hid hk => World.env_keeps h (hw.directories e he hid hk)
    sources := by
      intro s hs
      obtain ⟨e, he, hid, hpath, m, v, hplace, hshot, hsize⟩ := hw.sources s hs
      exact ⟨e, he, hid, hpath, m, v, World.env_keeps h hplace, hshot.env h, hsize.env h⟩ }

/-- The source directory itself is walked, and gets no second entry. -/
theorem skip (hw : Traced sourceDir walked scan pathOf w)
    (hs : Scanned os sourceDir walked scan pathOf) :
    Traced sourceDir (walked ++ [.ok sourceDir]) scan pathOf w :=
  { hw with
    items := by
      intro item hitem
      rcases List.mem_append.mp hitem with hitem | hitem
      · exact hw.items item hitem
      · refine ⟨[], ?_⟩
        rw [List.append_nil]
        exact List.mem_singleton.mp hitem
    covered := by
      intro p hp
      rcases List.mem_append.mp hp with hp | hp
      · exact hw.covered p hp
      · have hnil := Except.ok.inj (List.mem_singleton.mp hp)
        rw [List.append_cancel_left (hnil.trans (List.append_nil _).symm)]
        exact ⟨_, hs.root, hs.rootPath⟩ }

/-- One entry more, for an object that is there. -/
theorem add (hw : Traced sourceDir walked scan pathOf w)
    (hs : Scanned os sourceDir walked scan pathOf) (hp : Placed os sourceDir path rel scan place)
    (ha : Adds scan place rel e scan')
    (hdirectory : e.kind = .directory → w.fs.tree path = some .directory)
    (hsources : ∀ s ∈ scan'.sources, s ∈ scan.sources ∨ e.id = s.1 ∧ s.2.path = path ∧
      ∃ m v, w.fs.tree path = some (.file (.other m)) ∧ Shot s.2 m v w ∧ HadLength m e.size w) :
    Traced sourceDir (walked ++ [.ok path]) scan' (Function.update pathOf e.id rel) w := by
  have hold : ∀ x ∈ scan.entries, Function.update pathOf e.id rel x.id = pathOf x.id := by
    intro x hx
    refine Function.update_of_ne ?_ ..
    intro heq
    have hfresh := hs.fresh x hx
    rw [heq, ha.id] at hfresh
    exact Nat.lt_irrefl _ hfresh
  have hself : Function.update pathOf e.id rel e.id = rel := Function.update_self ..
  have hmem : ∀ {x : Entry}, x ∈ scan'.entries ↔ x ∈ scan.entries ∨ x = e := by
    intro x
    rw [ha.entries, List.mem_append, List.mem_singleton]
  refine ⟨?_, ?_, ?_, ?_⟩
  · intro item hitem
    rcases List.mem_append.mp hitem with hitem | hitem
    · exact hw.items item hitem
    · refine ⟨rel, ?_⟩
      rw [← hp.path]
      exact List.mem_singleton.mp hitem
  · intro p hwalked
    rcases List.mem_append.mp hwalked with hwalked | hwalked
    · obtain ⟨x, hx, rfl⟩ := hw.covered p hwalked
      exact ⟨x, hmem.mpr (.inl hx), hold x hx⟩
    · have hpath := Except.ok.inj (List.mem_singleton.mp hwalked)
      rw [hp.path] at hpath
      rw [List.append_cancel_left hpath]
      exact ⟨e, hmem.mpr (.inr rfl), hself⟩
  · intro x hx hid hk
    rcases hmem.mp hx with hx | rfl
    · rw [hold x hx]
      exact hw.directories x hx hid hk
    · rw [hself, ← hp.path]
      exact hdirectory hk
  · intro s hs'
    rcases hsources s hs' with hs' | ⟨hid, hpath, m, v, hplace, hshot, hsize⟩
    · obtain ⟨x, hx, hid, hpath, hshot⟩ := hw.sources s hs'
      refine ⟨x, hmem.mpr (.inl hx), hid, ?_, hshot⟩
      rw [hold x hx]
      exact hpath
    · refine ⟨e, hmem.mpr (.inr rfl), hid, ?_, m, v, ?_, hshot, hsize⟩
      · rw [hself, hpath, hp.path]
      · rw [hpath]
        exact hplace

end Traced

/-! ## The loop -/

/-- What the loop of `scan_source` keeps, in the state of the run. -/
def Scanning (os : Platform) (sourceDir : Path) (walked : List (Result Path)) (scan : Scan) (w : World) : Prop :=
  Ambient w ∧ ∃ pathOf, Scanned os sourceDir walked scan pathOf ∧
    Traced sourceDir walked scan pathOf w

theorem Scanning.stable : World.sharing.Stable (Scanning os sourceDir walked scan) := by
  apply World.stable_env
  rintro w a w' ha ⟨hambient, pathOf, hs, htraced⟩
  exact ⟨hambient.env ha, pathOf, hs, htraced.env ha⟩

theorem holds_scanFile (hs : Scanned os sourceDir walked scan pathOf)
    (hp : Placed os sourceDir path rel scan place) (hrel : rel ≠ [])
    (hnew : .ok (sourceDir ++ rel) ∉ walked) (hnext : checkedAdd scan.nextId 1 = some nextId) :
    Holds (fun _ => True)
      (fun w => Ambient w ∧ Traced sourceDir walked scan pathOf w ∧
        w.fs.tree path = some (.file ino))
      (scanFile { scan with nextId := nextId } place scan.nextId path)
      (Scanning os sourceDir (walked ++ [.ok path])) fun _ _ => True := by
  let P : World → Prop := fun w => Ambient w ∧ Traced sourceDir walked scan pathOf w ∧
    w.fs.tree path = some (.file ino)
  have hP : World.sharing.Stable P := by
    apply World.stable_env
    rintro w a w' ha ⟨hambient, htraced, hplace⟩
    exact ⟨hambient.env ha, htraced.env ha, World.env_keeps ha hplace⟩
  unfold scanFile
  refine .bind (holds_reads (a := FsNode.file ino) hP ?_) fun file => .assume fun hfile => ?_
  · intro w node hw hnode
    have hfollow : w.fs.follow 41 path = some (.file ino) := by
      rw [Fs.follow, hw.2.2]
    rw [hfollow] at hnode
    exact (Except.ok.inj hnode).symm
  subst hfile
  -- the size is of a content that the file has by now had
  let S : UInt64 → World → Prop := fun size w => P w ∧ ∃ m, ino = .other m ∧ HadLength m size w
  have hS : ∀ size, World.sharing.Stable (S size) := by
    intro size
    apply World.stable_env
    rintro w a w' ha ⟨⟨hambient, htraced, hplace⟩, m, hm, hsize⟩
    exact ⟨⟨hambient.env ha, htraced.env ha, World.env_keeps ha hplace⟩, m, hm, hsize.env ha⟩
  refine .bind (Q := S) ?_ fun size => ?_
  · refine holds_perform hP (fun _ _ _ _ _ _ => trivial) ?_
    intro i w size w' hw hop
    obtain ⟨hread, rfl⟩ := reading_ok hop
    obtain ⟨m, hm, rfl⟩ := hw.1.theirs path ino hw.2.2
    have hcurrent := hw.1.recorded.current m
    obtain rfl := Except.ok.inj hread
    exact ⟨hw, m, rfl, _, hcurrent,
      (UInt64.toNat_ofNat_of_lt' (hw.1.recorded.length m _ hcurrent)).symm⟩
  refine .bind (Q := fun id w => (id ≠ ByteArr.zero 16 ∧ id ∉ scan.fileIds) ∧ S size w)
    (.draw (hS size) ?_) fun fileId => .assume fun hid => ?_
  · intro i w r w' _ hw hf
    refine ⟨trivial, ?_⟩
    dsimp only at hf
    split at hf
    · rename_i hfresh
      obtain ⟨rfl, rfl⟩ := Prod.mk.inj (Option.some.inj hf)
      exact ⟨hfresh, hw⟩
    · cases hf
  refine .bind (holds_requires (hS size) _) fun sizes => .assume fun hsizes => ?_
  let Q : FileFingerprint → World → Prop := fun print w => Ambient w ∧
    Traced sourceDir walked scan pathOf w ∧ ∃ m v, w.fs.tree path = some (.file (.other m)) ∧
      Shot ⟨path, print⟩ m v w ∧ HadLength m size w
  have hQ : ∀ print, World.sharing.Stable (Q print) := by
    intro print
    apply World.stable_env
    rintro w a w' ha ⟨hambient, htraced, m, v, hplace, hshot, hsize⟩
    exact ⟨hambient.env ha, htraced.env ha, m, v, World.env_keeps ha hplace, hshot.env ha,
      hsize.env ha⟩
  refine .bind (Q := Q) ?_ fun print => ?_
  · refine holds_perform (hS size) (fun _ _ _ _ _ _ => trivial) ?_
    intro i w print w' hw hop
    obtain ⟨hread, rfl⟩ := reading_ok hop
    obtain ⟨⟨hambient, htraced, hplace⟩, m, rfl, hsize⟩ := hw
    obtain ⟨m', hm, heq⟩ := hambient.theirs path _ hplace
    obtain rfl := Ino.other.inj heq
    refine ⟨hambient, htraced, m, w'.fs.inodes (.other m), hplace, ⟨?_, hm, ?_, .inl rfl⟩, hsize⟩
    · exact (Except.ok.inj hread).symm
    · exact hambient.recorded.current m
  refine .bind (holds_requires (hQ print) _) fun total => .assume fun _ => ?_
  refine .bind (holds_requires (hQ print) _) fun offset => .assume fun hoffset => .pure ?_
  rintro w ⟨hambient, htraced, m, v, hplace, hshot, hsize⟩
  let scan' : Scan :=
    { scan with
      nextId := nextId
      entries := scan.entries ++ [fileEntry scan place scan.nextId fileId size sizes]
      fileIds := fileId :: scan.fileIds
      sources := scan.sources ++ [(scan.nextId, ⟨path, print⟩)]
      totalPlaintext := total
      dataOffset := offset }
  have ha : Adds scan place rel (fileEntry scan place scan.nextId fileId size sizes) scan' :=
    adds_file hs hnext hid hsizes (ofOption_eq_ok.mp hoffset)
  have hpath := hp.path
  refine ⟨hambient, _, ?_, htraced.add hs hp ha ?_ ?_⟩
  · exact hs.add hp hrel hnew ha
  · intro hkind
    cases hkind
  · intro s hs'
    rcases List.mem_append.mp hs' with hs' | hs'
    · exact .inl hs'
    · rw [List.mem_singleton.mp hs']
      exact .inr ⟨rfl, rfl, m, v, hplace, hshot, hsize⟩

theorem holds_scanItem {item : Result Path} (hnew : item ∉ walked) :
    Holds (fun _ => True) (Scanning os sourceDir walked scan) (scanItem os sourceDir scan item)
      (Scanning os sourceDir (walked ++ [item])) fun _ _ => True := by
  unfold scanItem
  refine .bind (Q := fun _ => Scanning os sourceDir walked scan) (.call Scanning.stable ?_) fun _ => ?_
  · intro i w _ hw
    refine ⟨trivial, ?_⟩
    dsimp only
    split
    · trivial
    · exact hw
  refine .bind (holds_requires Scanning.stable _) fun path => .assume fun hitem => ?_
  subst hitem
  split
  · rename_i hsource
    subst hsource
    refine .pure ?_
    rintro w ⟨hambient, pathOf, hs, htraced⟩
    exact ⟨hambient, pathOf, hs.skip, htraced.skip hs⟩
  · rename_i hne
    refine .bind (holds_requires Scanning.stable _) fun place => .assume fun hplace => ?_
    obtain ⟨rel, hp⟩ := placeOf_eq_ok hplace
    have hpath := hp.path
    have hrel : rel ≠ [] := by
      rintro rfl
      rw [List.append_nil] at hpath
      exact hne hpath
    rw [hpath] at hnew
    let P : FsNode → World → Prop := fun node w => Scanning os sourceDir walked scan w ∧
      w.fs.tree path = some node
    have hP : ∀ node, World.sharing.Stable (P node) := by
      intro node
      apply World.stable_env
      rintro w a w' ha ⟨⟨hambient, pathOf, hs, htraced⟩, hnode⟩
      exact ⟨⟨hambient.env ha, pathOf, hs, htraced.env ha⟩, World.env_keeps ha hnode⟩
    refine .bind (Q := P) ?_ fun node => ?_
    · refine holds_perform Scanning.stable (fun _ _ _ _ _ _ => trivial) ?_
      intro i w node w' hw hop
      obtain ⟨hread, rfl⟩ := reading_ok hop
      split at hread
      · rename_i hnode
        obtain rfl := Except.ok.inj hread
        exact ⟨hw, hnode⟩
      · cases hread
    refine .bind (holds_requires (hP node) _) fun nextId => .assume fun hnext => ?_
    rw [ofOption_eq_ok] at hnext
    cases node with
    | symlink target =>
        refine (holds_requires (hP _) _).conseq (fun _ hw => hw) ?_ fun _ _ he => he
        rintro scan' w ⟨hbail, -⟩
        exact absurd hbail bail_ne_ok
    | special =>
        refine (holds_requires (hP _) _).conseq (fun _ hw => hw) ?_ fun _ _ he => he
        rintro scan' w ⟨hbail, -⟩
        exact absurd hbail bail_ne_ok
    | directory =>
        refine .pure ?_
        rintro w ⟨⟨hambient, pathOf, hs, htraced⟩, hnode⟩
        have ha := adds_directory hs hp hnext
        exact ⟨hambient, _, hs.add hp hrel hnew ha, htraced.add hs hp ha (fun _ => hnode) fun s hs' =>
          .inl hs'⟩
    | file ino =>
        refine .pre (P := fun w => ∃ pathOf, Scanned os sourceDir walked scan pathOf ∧ Ambient w ∧
          Traced sourceDir walked scan pathOf w ∧ w.fs.tree path = some (.file ino)) ?_ ?_
        · exact .exists fun pathOf => .assume fun hs => holds_scanFile hs hp hrel hnew hnext
        · rintro w ⟨⟨hambient, pathOf, hs, htraced⟩, hnode⟩
          exact ⟨pathOf, hs, hambient, htraced, hnode⟩

/-- **The scan notes, for every file it lists, one content of that file.** -/
theorem holds_scanSource {walk : List (Result Path)} (hwalk : walk.Nodup) :
    Holds (fun _ => True) Ambient (scanSource os walk sourceDir) (Scanning os sourceDir walk)
      fun _ _ => True := by
  refine (Triple.foldlM (I := Scanning os sourceDir) ?_).pre ?_
  · rintro pre item post scan rfl
    refine holds_scanItem ?_
    intro hmem
    exact (List.nodup_append.mp hwalk).2.2 item hmem item List.mem_cons_self rfl
  · intro w hw
    exact ⟨hw, _, scanned_start, .start w⟩

end CipherFS.Pack
