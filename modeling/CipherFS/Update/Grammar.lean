import CipherFS.Update.Download

/-!
# The grammar of the manifest

`parse_manifest` accepts every text of the five fields and no other. A manifest
that is written line by line, in any order of the lines, is read back; a line
too many or too few, a line without `=` and a key twice are refused.
-/

namespace CipherFS.Update

variable {Version : Type} {semver : Semver Version} {m : Manifest Version} {text : Text}

/-- A line as a key and a value. -/
abbrev Field : Type := Sigma fun _ : Text => Text

/-- The key of a line. -/
def keyOf (line : Text) : Text := line.takeWhile (· ≠ '=')

/-- The keys of a manifest. -/
def manifestKeys : List Text :=
  ["sha256".toList, "version".toList, "target".toList, "asset".toList, "size".toList]

theorem keys_fields (m : Manifest Version) (version size : Text) :
    (m.fields version size).map Sigma.fst = manifestKeys := rfl

theorem nodup_manifestKeys : manifestKeys.Nodup := by decide

theorem equals_notMem_key : ∀ key ∈ manifestKeys, '=' ∉ key := by decide

/-! ## Reading the lines -/

theorem ne_equals {key : Text} (h : '=' ∉ key) : ∀ c ∈ key, decide (c ≠ '=') = true := by
  intro c hc
  rw [decide_eq_true_eq]
  rintro rfl
  exact h hc

theorem keyOf_fieldLine {field : Field} (h : '=' ∉ field.1) : keyOf (fieldLine field) = field.1 := by
  rw [keyOf, fieldLine, List.takeWhile_append_of_pos (ne_equals h),
    List.takeWhile_cons_of_neg (by simp), List.append_nil]

theorem dropWhile_fieldLine {field : Field} (h : '=' ∉ field.1) :
    (fieldLine field).dropWhile (· ≠ '=') = '=' :: field.2 := by
  rw [fieldLine, List.dropWhile_append_of_pos (ne_equals h), List.dropWhile_cons_of_neg (by simp)]

/-- A line is split at its first `=`. -/
theorem splitOnce_fieldLine {field : Field} (h : '=' ∉ field.1) :
    (fieldLine field).splitOnce '=' = some (field.1, field.2) := by
  have hkey : (fieldLine field).takeWhile (· ≠ '=') = field.1 := keyOf_fieldLine h
  rw [Text.splitOnce, dropWhile_fieldLine h, hkey]

/-- Lines of new keys fill the map. -/
theorem foldlM_insertLine_eq {fields : List Field} {values : HashMap Text Text}
    (hkeys : (fields.map Sigma.fst).Nodup) (hequals : ∀ f ∈ fields, '=' ∉ f.1)
    (hfresh : ∀ f ∈ fields, f.1 ∉ values.keys) :
    ∃ values', (fields.map fieldLine).foldlM insertLine values = .ok values' ∧
      values'.entries = fields.reverse ++ values.entries := by
  induction fields generalizing values with
  | nil => exact ⟨values, rfl, rfl⟩
  | cons f rest ih =>
      rw [List.forall_mem_cons] at hequals hfresh
      rw [List.map_cons, List.nodup_cons] at hkeys
      have hnew : values.lookup f.1 = none := AList.lookup_eq_none.mpr hfresh.1
      have hline : insertLine values (fieldLine f) = .ok (values.insert f.1 f.2) := by
        rw [insertLine, splitOnce_fieldLine hequals.1]
        show (do
          Result.rejectIf (values.lookup f.1 ≠ none) "Duplicate field in signed update manifest"
          return values.insert f.1 f.2) = _
        rw [Result.rejectIf, if_neg (not_not.mpr hnew)]
        rfl
      have hrest : ∀ g ∈ rest, g.1 ∉ (values.insert f.1 f.2).keys := by
        intro g hg hmem
        rcases (AList.mem_insert _).mp hmem with heq | hmem
        · exact hkeys.1 (heq ▸ List.mem_map_of_mem hg)
        · exact hfresh.2 g hg hmem
      obtain ⟨values', hfold, hentries⟩ := ih hkeys.2 hequals.2 hrest
      refine ⟨values', ?_, ?_⟩
      · rw [List.map_cons, List.foldlM_cons, hline]
        exact hfold
      · rw [hentries, AList.entries_insert_of_notMem hfresh.1, List.reverse_cons, List.append_assoc]
        rfl

theorem takeField_of_lookup {values : HashMap Text Text} {key text : String} {value : Text}
    (h : values.lookup key.toList = some value) :
    takeField values key text = .ok (value, values.erase key.toList) := by
  rw [takeField, h]
  rfl

/-- **Every text of the five fields is accepted.** -/
theorem parseManifest_of_writtenIn (h : m.WrittenIn semver text) :
    parseManifest semver text = .ok m := by
  obtain ⟨⟨version, size, hversion, hsize, hlines⟩, hdigest⟩ := h
  -- the lines are the fields themselves, in some order
  obtain ⟨fields, htext, hperm⟩ : ∃ fields : List Field, text.lines = fields.map fieldLine ∧
      fields.Perm (m.fields version size) := by
    rw [← congrFun₂ (List.eq_map_comp_perm fieldLine) text.lines] at hlines
    exact hlines
  have hkeys : (fields.map Sigma.fst).Nodup :=
    (hperm.map Sigma.fst).nodup_iff.mpr nodup_manifestKeys
  have hequals : ∀ f ∈ fields, '=' ∉ f.1 := fun f hf =>
    equals_notMem_key f.1 (List.mem_map_of_mem (hperm.mem_iff.mp hf))
  obtain ⟨values, hfold, hentries⟩ : ∃ values : HashMap Text Text,
      (fields.map fieldLine).foldlM insertLine ∅ = .ok values ∧
      values.entries = fields.reverse ++ [] :=
    foldlM_insertLine_eq hkeys hequals fun _ _ => nofun
  have hvalues : values.entries.Perm (m.fields version size) := by
    rw [hentries]
    exact (List.append_nil fields.reverse ▸ fields.reverse_perm).trans hperm
  have hlook : ∀ f ∈ m.fields version size, values.lookup f.1 = some f.2 := fun f hf =>
    AList.mem_lookup_iff.mpr (hvalues.mem_iff.mpr hf)
  simp only [Manifest.fields, List.forall_mem_cons] at hlook
  obtain ⟨hsha, hver, htarget, hasset, hsz, -⟩ := hlook
  have hcount : values.entries.length = 5 := hvalues.length_eq
  simp only [parseManifest, Result.bind_eq_ok, Result.rejectIf_eq_ok, Result.pure_eq_ok, not_not]
  refine ⟨values, ?_, (), hcount, _, takeField_of_lookup hsha, (), hdigest,
    _, takeField_of_lookup ?_, m.version, hversion, _, takeField_of_lookup ?_,
    _, takeField_of_lookup ?_, _, takeField_of_lookup ?_, m.size, hsize, rfl⟩
  · rw [htext]
    exact hfold
  -- the erasures leave the other keys as they are
  · rw [AList.lookup_erase_ne (by decide)]
    exact hver
  · rw [AList.lookup_erase_ne (by decide), AList.lookup_erase_ne (by decide)]
    exact htarget
  · rw [AList.lookup_erase_ne (by decide), AList.lookup_erase_ne (by decide),
      AList.lookup_erase_ne (by decide)]
    exact hasset
  · rw [AList.lookup_erase_ne (by decide), AList.lookup_erase_ne (by decide),
      AList.lookup_erase_ne (by decide), AList.lookup_erase_ne (by decide)]
    exact hsz

theorem parseManifest_eq_ok_iff : parseManifest semver text = .ok m ↔ m.WrittenIn semver text :=
  ⟨parseManifest_writtenIn, parseManifest_of_writtenIn⟩

/-! ## What is refused -/

theorem Manifest.WrittenIn.exists_field {line : Text} (h : m.WrittenIn semver text)
    (hline : line ∈ text.lines) : ∃ field : Field, line = fieldLine field ∧
      field.1 ∈ manifestKeys := by
  obtain ⟨⟨version, size, -, -, hlines⟩, -⟩ := h
  obtain ⟨field, hfield, rfl⟩ := List.mem_map.mp (hlines.mem_iff.mp hline)
  refine ⟨field, rfl, ?_⟩
  rw [← keys_fields m version size]
  exact List.mem_map_of_mem hfield

/-- The keys of an accepted text are the five keys, each once. -/
theorem Manifest.WrittenIn.keys_perm (h : m.WrittenIn semver text) :
    (text.lines.map keyOf).Perm manifestKeys := by
  obtain ⟨⟨version, size, -, -, hlines⟩, -⟩ := h
  refine (hlines.map keyOf).trans (List.Perm.of_eq ?_)
  rw [List.map_map, ← keys_fields m version size]
  refine List.map_congr_left fun field hfield => keyOf_fieldLine ?_
  exact equals_notMem_key field.1 (keys_fields m version size ▸ List.mem_map_of_mem hfield)

/-- A text that is not made of five lines with the five keys. -/
def Malformed (text : Text) : Prop :=
  (∃ line ∈ text.lines, '=' ∉ line) ∨ ¬(text.lines.map keyOf).Nodup ∨
    (∃ key ∈ manifestKeys, key ∉ text.lines.map keyOf) ∨
    (∃ line ∈ text.lines, keyOf line ∉ manifestKeys) ∨ text.lines.length ≠ 5

theorem Manifest.WrittenIn.not_malformed (h : m.WrittenIn semver text) : ¬Malformed text := by
  rintro (⟨line, hline, hequals⟩ | hdup | ⟨key, hkey, hmissing⟩ | ⟨line, hline, hextra⟩ | hlen)
  · obtain ⟨field, rfl, -⟩ := h.exists_field hline
    exact hequals (List.mem_append_right _ List.mem_cons_self)
  · exact hdup (h.keys_perm.nodup_iff.mpr nodup_manifestKeys)
  · exact hmissing (h.keys_perm.mem_iff.mpr hkey)
  · exact hextra (h.keys_perm.mem_iff.mp (List.mem_map_of_mem hline))
  · apply hlen
    rw [← List.length_map keyOf]
    exact h.keys_perm.length_eq

/-! ## Rendering -/

/-- The text of some lines, with or without an end of the last one. -/
def render (lines : List Text) (final : Bool) : Text :=
  List.intercalate ['\n'] lines ++ if final then ['\n'] else []

theorem stripSuffix_of_getLast? {line : Text} (h : line.getLast? ≠ some '\r') :
    Text.stripSuffix '\r' line = line := if_neg h

theorem intercalate_snoc_nil {lines : List Text} (h : lines ≠ []) :
    List.intercalate ['\n'] (lines ++ [[]]) = List.intercalate ['\n'] lines ++ ['\n'] := by
  induction lines with
  | nil => exact absurd rfl h
  | cons line rest ih =>
      cases rest with
      | nil => simp [List.intercalate]
      | cons next rest =>
          have hrest := ih (List.cons_ne_nil _ _)
          simp only [List.intercalate, List.cons_append, List.intersperse_cons_cons,
            List.flatten_cons] at hrest ⊢
          rw [hrest]
          simp only [List.append_assoc, List.cons_append]

/-- Lines without a line break are what is read from their text. -/
theorem lines_render {lines : List Text} {final : Bool} (hne : lines ≠ [])
    (hbreak : ∀ line ∈ lines, '\n' ∉ line) (hblank : ∀ line ∈ lines, line ≠ [])
    (hreturn : ∀ line ∈ lines, line.getLast? ≠ some '\r') :
    (render lines final).lines = lines := by
  have hstrip : ∀ ls : List Text, (∀ line ∈ ls, line ∈ lines) →
      ls.map (Text.stripSuffix '\r') = ls := by
    intro ls hls
    refine (List.map_congr_left fun line hline => ?_).trans (List.map_id ls)
    exact stripSuffix_of_getLast? (hreturn line (hls line hline))
  cases final with
  | false =>
      have hsplit : (render lines false).splitOn '\n' = lines := by
        rw [render, if_neg Bool.false_ne_true, List.append_nil]
        exact List.splitOn_intercalate '\n' hbreak hne
      rw [Text.lines, hsplit, hstrip _ (List.dropLast_subset lines)]
      have hlast : lines.getLast?.toList.filter (· ≠ []) = [lines.getLast hne] := by
        rw [List.getLast?_eq_some_getLast hne]
        simp [hblank _ (List.getLast_mem hne)]
      rw [hlast, List.dropLast_append_getLast]
  | true =>
      have hsplit : (render lines true).splitOn '\n' = lines ++ [[]] := by
        rw [render, if_pos rfl, ← intercalate_snoc_nil hne]
        refine List.splitOn_intercalate '\n' ?_ (by simp)
        intro line hline
        rcases List.mem_append.mp hline with hline | hline
        · exact hbreak line hline
        · rw [List.mem_singleton.mp hline]
          exact List.not_mem_nil
      rw [Text.lines, hsplit, List.dropLast_concat, hstrip _ fun _ => id]
      simp

/-- A text without a line break, and without the first half of one at its end. -/
def NoBreak (text : Text) : Prop := '\n' ∉ text ∧ text.getLast? ≠ some '\r'

instance (text : Text) : Decidable (NoBreak text) :=
  inferInstanceAs (Decidable ('\n' ∉ text ∧ text.getLast? ≠ some '\r'))

theorem noBreak_of_all {text : Text} {p : Char → Bool} (h : text.all p) (hn : p '\n' = false)
    (hr : p '\r' = false) : NoBreak text := by
  rw [List.all_eq_true] at h
  constructor
  · intro hmem
    exact Bool.false_ne_true (hn.symm.trans (h _ hmem))
  · intro hlast
    exact Bool.false_ne_true (hr.symm.trans (h _ (List.mem_of_getLast? hlast)))

/-- A size in decimal. -/
def sizeText (size : UInt64) : Text := Nat.toDigits 10 size.toNat

theorem all_isDigit_sizeText (size : UInt64) : (sizeText size).all Char.isDigit := by
  rw [List.all_eq_true]
  intro c hc
  exact Nat.isDigit_of_mem_toDigits (by decide) (by decide) hc

theorem ofDigits_sizeText (size : UInt64) : Text.ofDigits (sizeText size) = size.toNat := by
  rw [Text.ofDigits, ← Nat.ofDigitChars_eq_foldl]
  exact Nat.ofDigitChars_toDigits (by decide) (by decide)

theorem parseU64_sizeText (size : UInt64) : Text.parseU64 (sizeText size) = .ok size := by
  have hall := all_isDigit_sizeText size
  have hlt : ¬2 ^ 64 ≤ Text.ofDigits (sizeText size) := by
    rw [ofDigits_sizeText]
    exact not_le.mpr size.toNat_lt
  unfold Text.parseU64
  split
  · rename_i c rest heq
    -- a sign is no digit
    rw [heq, List.all_cons, Bool.and_eq_true] at hall
    exact absurd hall.1 (by decide)
  · simp only [Result.bind_eq_ok, Result.rejectIf_eq_ok, Result.pure_eq_ok]
    refine ⟨(), Nat.toDigits_ne_nil, (), not_not.mpr hall, (), hlt, ?_⟩
    rw [ofDigits_sizeText, UInt64.ofNat_toNat]

theorem noBreak_fieldLine {field : Field} (hkey : field.1 ∈ manifestKeys)
    (hvalue : NoBreak field.2) : NoBreak (fieldLine field) ∧ fieldLine field ≠ [] := by
  have hclean : ∀ key ∈ manifestKeys, '\n' ∉ key := by decide
  refine ⟨⟨?_, ?_⟩, by simp [fieldLine]⟩
  · intro hmem
    rcases List.mem_append.mp hmem with hmem | hmem
    · exact hclean _ hkey hmem
    · rcases List.mem_cons.mp hmem with heq | hmem
      · exact absurd heq (by decide)
      · exact hvalue.1 hmem
  · intro hlast
    rw [fieldLine, List.getLast?_append, List.getLast?_cons] at hlast
    cases hv : field.2.getLast? with
    | none =>
        rw [hv] at hlast
        exact absurd (Option.some.inj hlast) (by decide)
    | some c =>
        rw [hv] at hlast
        exact hvalue.2 (hv.trans hlast)

/-- **A manifest is read back from its lines, in whichever order they stand.** -/
theorem parseManifest_render {fields : List Field} (final : Bool)
    (hversion : semver.parse (semver.toText m.version) = .ok m.version)
    (hdigest : isDigest m.sha256) (hbreak : NoBreak (semver.toText m.version) ∧
      NoBreak m.target ∧ NoBreak m.asset)
    (horder : fields.Perm (m.fields (semver.toText m.version) (sizeText m.size))) :
    parseManifest semver (render (fields.map fieldLine) final) = .ok m := by
  have hsha : NoBreak m.sha256 := by
    rw [isDigest, decide_eq_true_eq] at hdigest
    exact noBreak_of_all hdigest.2 (by decide) (by decide)
  have hsize : NoBreak (sizeText m.size) :=
    noBreak_of_all (all_isDigit_sizeText m.size) (by decide) (by decide)
  have hvalues : ∀ f ∈ m.fields (semver.toText m.version) (sizeText m.size), NoBreak f.2 := by
    simp only [Manifest.fields, List.forall_mem_cons]
    exact ⟨hsha, hbreak.1, hbreak.2.1, hbreak.2.2, hsize, fun _ => nofun⟩
  have hlines : ∀ line ∈ fields.map fieldLine, NoBreak line ∧ line ≠ [] := by
    intro line hline
    obtain ⟨field, hfield, rfl⟩ := List.mem_map.mp hline
    have hmem := horder.mem_iff.mp hfield
    refine noBreak_fieldLine ?_ (hvalues field hmem)
    rw [← keys_fields m (semver.toText m.version) (sizeText m.size)]
    exact List.mem_map_of_mem hmem
  have hne : fields.map fieldLine ≠ [] := by
    intro hnil
    have hlen := horder.length_eq
    rw [List.map_eq_nil_iff.mp hnil] at hlen
    exact absurd hlen (Nat.zero_ne_add_one 4)
  refine parseManifest_of_writtenIn ⟨⟨_, _, hversion, parseU64_sizeText m.size, ?_⟩, hdigest⟩
  rw [lines_render hne (fun line h => (hlines line h).1.1) (fun line h => (hlines line h).2)
    fun line h => (hlines line h).1.2]
  exact horder.map fieldLine

/-! ## The grammar -/

variable (semver) in
/-- **The grammar of the manifest.** `parse_manifest` returns a manifest exactly for
the texts it is written in; a malformed text is refused; and what is rendered from
a manifest, in any order of its lines, is read back. -/
theorem parse_manifest_grammar :
    (∀ (text : Text) (m : Manifest Version),
      parseManifest semver text = .ok m ↔ m.WrittenIn semver text) ∧
    (∀ text, Malformed text → ∀ m, parseManifest semver text ≠ .ok m) ∧
    ∀ (m : Manifest Version) (fields : List Field) (final : Bool),
      semver.parse (semver.toText m.version) = .ok m.version → isDigest m.sha256 →
      NoBreak (semver.toText m.version) → NoBreak m.target → NoBreak m.asset →
      fields.Perm (m.fields (semver.toText m.version) (sizeText m.size)) →
      parseManifest semver (render (fields.map fieldLine) final) = .ok m := by
  refine ⟨fun _ _ => parseManifest_eq_ok_iff, ?_, ?_⟩
  · intro text hbad m hparse
    exact (parseManifest_writtenIn hparse).not_malformed hbad
  · intro m fields final hversion hdigest hver htarget hasset horder
    exact parseManifest_render final hversion hdigest ⟨hver, htarget, hasset⟩ horder

/-- The manifest of a release. -/
def releaseManifest : Manifest (ℕ ×ₗ ℕ ×ₗ ℕ) :=
  ⟨toLex (3, toLex (2, 0)), target .windows, binaryAsset .windows, 2, sampleDigest⟩

theorem parse_manifest_grammar_sample :
    parseManifest plainSemver (render ((releaseManifest.fields "3.2.0".toList
      ['2']).reverse.map fieldLine) true) = .ok releaseManifest :=
  (parse_manifest_grammar plainSemver).2.2 releaseManifest _ true (by decide +kernel)
    (by decide +kernel) (by decide +kernel) (by decide +kernel) (by decide +kernel)
    (List.reverse_perm _)

end CipherFS.Update
