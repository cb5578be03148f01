import CipherFS.Core.Progress.Verify

/-!
# What packing knows before it writes

The scan keeps a total beside its entries. Every source it collects stands for one
file entry, whose chunk count is the one for its size, and the total is the sum of
the sizes. The header is unlocked by the password it is made for, and the encrypted
index is the one of the entries.
-/

namespace CipherFS.Pack

open Result WorldProg V2 Prog

variable {Key : Type} {ok : OperationEvent → Prop} {p q : OperationPhase} {scan scan' : Scan}
  {e : Entry} {place : Place} {path : Path}

/-! ## The scan -/

/-- The scan so far adds up. -/
structure Tally (scan : Scan) : Prop where
  sources : scan.sources.map Prod.fst = (scan.entries.filter Entry.isFile).map Entry.id
  ids : (scan.entries.map Entry.id).Nodup
  fresh : ∀ e ∈ scan.entries, e.id.toNat < scan.nextId.toNat
  chunked : ∀ e ∈ scan.entries, e.kind = .file → e.Chunked
  total : scan.totalPlaintext.toNat = totalSize scan.entries

namespace Tally

theorem start : Tally .start where
  sources := rfl
  ids := List.nodup_singleton _
  fresh e he := by
    rw [List.mem_singleton.mp he]
    decide
  chunked e he hk := by
    rw [List.mem_singleton.mp he] at hk
    cases hk
  total := rfl

/-- One entry more. -/
theorem push (h : Tally scan) (hentries : scan'.entries = scan.entries ++ [e])
    (hid : e.id = scan.nextId) (hnext : checkedAdd scan.nextId 1 = some scan'.nextId)
    (hchunked : e.kind = .file → e.Chunked)
    (hsources : scan'.sources.map Prod.fst =
      scan.sources.map Prod.fst ++ ([e].filter Entry.isFile).map Entry.id)
    (htotal : scan'.totalPlaintext.toNat = scan.totalPlaintext.toNat + totalSize [e]) :
    Tally scan' := by
  have hnext' := checkedAdd_eq_some_iff.mp hnext
  have hone : (1 : UInt64).toNat = 1 := rfl
  refine ⟨?_, ?_, fun x hx => ?_, fun x hx hk => ?_, ?_⟩
  · rw [hsources, hentries, h.sources, List.filter_append, List.map_append]
  · rw [hentries, List.map_append, List.map_singleton, List.nodup_append]
    refine ⟨h.ids, List.nodup_singleton _, fun a ha b hb hab => ?_⟩
    obtain ⟨x, hx, rfl⟩ := List.mem_map.mp ha
    have hlt := h.fresh x hx
    rw [hab, List.mem_singleton.mp hb, hid] at hlt
    exact Nat.lt_irrefl _ hlt
  · rw [hentries, List.mem_append, List.mem_singleton] at hx
    rcases hx with hx | rfl
    · have hlt := h.fresh x hx
      omega
    · rw [hid]
      omega
  · rw [hentries, List.mem_append, List.mem_singleton] at hx
    rcases hx with hx | rfl
    · exact h.chunked x hx hk
    · exact hchunked hk
  · rw [htotal, hentries, totalSize_append, h.total]

theorem directory (h : Tally scan) {nextId : UInt64}
    (hnext : checkedAdd scan.nextId 1 = some nextId) :
    Tally (({ scan with nextId := nextId } : Scan).addDirectory place scan.nextId) := by
  refine h.push (e := directoryEntry scan.nextId place.parentId place.name place.depth) rfl rfl hnext
    nofun (List.append_nil _).symm ?_
  rw [totalSize_directory rfl, Nat.add_zero]
  rfl

/-! ### The sources -/

theorem entryById_eq (h : Tally scan) (he : e ∈ scan.entries) :
    entryById scan.entries e.id = some e := by
  rw [entryById, List.find?_eq_some_iff_append]
  refine ⟨decide_eq_true rfl, ?_⟩
  obtain ⟨pre, post, hsplit⟩ := List.append_of_mem he
  refine ⟨post.reverse, pre.reverse, by simp [hsplit], fun x hx => ?_⟩
  have hids := h.ids
  rw [hsplit, List.map_append, List.map_cons, List.nodup_append, List.nodup_cons] at hids
  have hne : x.id ≠ e.id := fun heq =>
    hids.2.1.1 (heq ▸ List.mem_map_of_mem (List.mem_reverse.mp hx))
  simpa using hne

/-- What the task of a source owes. -/
def owed (scan : Scan) (id : UInt64) : Nat :=
  ((entryById scan.entries id).map fun e => e.size.toNat).getD 0

theorem owed_eq (h : Tally scan) (he : e ∈ scan.entries) : owed scan e.id = e.size.toNat := by
  rw [owed, h.entryById_eq he]
  rfl

/-- **The sources owe the total.** -/
theorem sum_owed (h : Tally scan) :
    (scan.sources.map fun s => owed scan s.1).sum = scan.totalPlaintext.toNat := by
  have hmap : scan.sources.map (fun s => owed scan s.1) =
      (scan.sources.map Prod.fst).map (owed scan) := by
    rw [List.map_map]
    rfl
  rw [hmap, h.sources, List.map_map, h.total, totalSize]
  congr 1
  refine List.map_congr_left fun e he => ?_
  exact h.owed_eq (List.mem_filter.mp he).1

/-- A source is the one of a file. -/
theorem exists_entry (h : Tally scan) {id : UInt64} {snapshot : SourceSnapshot}
    (hs : (id, snapshot) ∈ scan.sources) :
    ∃ e, entryById scan.entries id = some e ∧ e.Chunked ∧ owed scan id = e.size.toNat := by
  have hid : id ∈ scan.sources.map Prod.fst := List.mem_map_of_mem hs
  rw [h.sources] at hid
  obtain ⟨e, he, rfl⟩ := List.mem_map.mp hid
  obtain ⟨he, hfile⟩ := List.mem_filter.mp he
  exact ⟨e, h.entryById_eq he, h.chunked e he (Entry.isFile_iff.mp hfile), h.owed_eq he⟩

end Tally

theorem quiet_openFile (path : Path) : Built (quietly ok q) (perform (Op.openFile path)) :=
  quiet_reading

theorem quiet_fromFile (file : FsNode) :
    Built (quietly ok q) (perform (FileFingerprint.fromFile file)) := quiet_reading

theorem yields_tally_scanFile (h : Tally scan) {nextId : UInt64}
    (hnext : checkedAdd scan.nextId 1 = some nextId) :
    Yields (quietly ok q) Tally
      (scanFile { scan with nextId := nextId } place scan.nextId path) := by
  unfold scanFile
  refine .bind (quiet_openFile path) fun file _ => .bind quiet_reading fun size _ => ?_
  refine .bind (V := fun _ => True) (.draw (fun i w r w' hf => ?_) fun _ _ _ _ _ => trivial)
    fun fileId _ => ?_
  · dsimp only at hf
    split at hf
    · obtain ⟨-, rfl⟩ := Prod.mk.inj (Option.some.inj hf)
      exact Quiet.logging w w.failures
    · cases hf
  refine .bind (yields_quiet_require _) fun sizes hsizes => .bind (quiet_fromFile file) fun print _ => ?_
  refine .bind (yields_quiet_require _) fun total htotal => .bind (quiet_require _) fun offset _ => ?_
  refine .pure (h.push rfl rfl hnext (fun _ => ?_) ?_ ?_)
  · exact (encryptedFileSize_eq_ok.mp hsizes).1
  · rw [List.map_append]
    rfl
  · have hadd := checkedAdd_eq_some_iff.mp (ofOption_eq_ok.mp htotal)
    rw [totalSize_file rfl]
    exact hadd

theorem yields_tally_scanItem {os : Platform} {sourceDir : Path} (h : Tally scan) (item : Result Path) :
    Yields (quietly ok q) Tally (scanItem os sourceDir scan item) := by
  unfold scanItem
  refine .bind quiet_check fun _ _ => .bind (quiet_require _) fun path _ => ?_
  split
  · exact .pure h
  · refine .bind (quiet_require _) fun place _ => .bind quiet_reading fun node _ => ?_
    refine .bind (yields_quiet_require _) fun nextId hnext => ?_
    rw [ofOption_eq_ok] at hnext
    cases node with
    | symlink _ => exact (yields_quiet_require _).weaken fun _ hbail => absurd hbail bail_ne_ok
    | directory => exact .pure (h.directory hnext)
    | file _ => exact yields_tally_scanFile h hnext
    | special => exact (yields_quiet_require _).weaken fun _ hbail => absurd hbail bail_ne_ok

/-- **The scan adds up.** -/
theorem yields_tally_scanSource (os : Platform) (walk : List (Result Path)) (sourceDir : Path) :
    Yields (quietly ok q) Tally (scanSource os walk sourceDir) :=
  .foldlM (fun _ h item _ => yields_tally_scanItem h item) .start

/-! ## The header and the index -/

variable {R : Reader Key} {req : PackRequest}

/-- What is known when the output is about to be touched. -/
structure Written (R : Reader Key) (req : PackRequest) (prepared : Prepared) : Prop where
  tally : Tally prepared.scan
  first : prepared.header.slot0.generation = 1
  second : prepared.header.slot1.generation = 0
  opens : Opens R.crypto prepared.header prepared.header.slot0 req.password prepared.dek
  index : ∃ serialized key, R.codec.encode ⟨prepared.scan.entries⟩ = some serialized ∧
    deriveIndexKey R.crypto prepared.dek prepared.header.containerId = .ok key ∧
    R.crypto.encrypt key prepared.header.indexNonce (indexAad R.crypto prepared.header)
      serialized = some prepared.encryptedIndex
  size : UInt64.ofNat prepared.encryptedIndex.length = prepared.header.indexSize

theorem quiet_inspectRequest : Built (quietly ok q) (inspectRequest req) := by
  unfold inspectRequest
  refine .bind quiet_check fun _ => .bind (kept_context quiet_reading) fun _ => ?_
  exact .bind (quiet_require _) fun _ => .bind (quiet_require _) fun _ => quiet_check

theorem yields_serializeIndex (entries : List Entry) :
    Yields (quietly ok q) (fun out => R.codec.encode ⟨entries⟩ = some out.1)
      (serializeIndex R req entries) := by
  unfold serializeIndex
  refine .bind (yields_quiet_require _) fun serialized hserialized => ?_
  refine .bind (quiet_require _) fun _ _ => .bind (quiet_require _) fun _ _ => ?_
  exact .pure (ofOption_eq_ok.mp hserialized)

/-- The first keyslot is for the password, and the other one is not in use. -/
theorem yields_keySlots (hp : p ≠ .keyDerivation) (indexSize : UInt64) (scan : Scan) :
    Yields (quietly (·.Outside p) q) (fun made => made.1.slot0.generation = 1 ∧
      made.1.slot1.generation = 0 ∧ Opens R.crypto made.1 made.1.slot0 req.password made.2)
      (makeHeader R req indexSize scan) := by
  have hrandom : Built (quietly (·.Outside p) q) headerRandom :=
    kept_call fun _ w => Quiet.logging w w.failures
  unfold makeHeader
  refine .bind hrandom fun r _ => .bind (quiet_event fun h => hp (Option.some.inj h).symm) fun _ _ => ?_
  refine .bind (yields_quiet_require _) fun header hheader => .bind quiet_check fun _ _ => ?_
  refine .bind (yields_quiet_require _) fun slot hslot => .bind quiet_check fun _ _ => ?_
  obtain ⟨-, -, hsecond⟩ := configureDuress_spec hheader
  obtain ⟨hgen, -, -, -, hopens⟩ := makeKeySlot_eq_ok.mp hslot
  refine .pure ⟨hgen, ?_, Opens.setSlot (i := .first).mpr hopens⟩
  show header.slot1.generation = 0
  rw [hsecond]
  rfl

/-- **What is prepared fits together.** -/
theorem yields_prepare (hscan : p ≠ .scan) (hkey : p ≠ .keyDerivation)
    (walk : List (Result Path)) :
    Yields (quietly (·.Outside p) q) (Written R req) (prepare R walk req) := by
  unfold prepare
  refine .bind quiet_inspectRequest fun _ _ => ?_
  refine .bind (quiet_event fun h => hscan (Option.some.inj h).symm) fun _ _ => ?_
  refine .bind (quiet_event fun h => hscan (Option.some.inj h).symm) fun _ _ => ?_
  refine .bind (yields_tally_scanSource R.os walk req.source) fun scan htally => ?_
  refine .bind (quiet_event nofun) fun _ _ => .bind (yields_serializeIndex _) fun out hout => ?_
  refine .bind (yields_keySlots hkey out.2 scan) fun made hmade => ?_
  obtain ⟨hfirst, hsecond, hopens⟩ := hmade
  refine .bind (yields_quiet_require _) fun key hkey => ?_
  refine .bind (yields_quiet_require _) fun encrypted hencrypted => ?_
  refine .bind (yields_quiet_require _) fun _ hsize => ?_
  refine .pure ⟨htally, hfirst, hsecond, hopens, ⟨out.1, key, hout, hkey, ?_⟩, ?_⟩
  · exact ofOption_eq_ok.mp hencrypted
  · exact not_not.mp (rejectIf_eq_ok.mp hsize)

end CipherFS.Pack
