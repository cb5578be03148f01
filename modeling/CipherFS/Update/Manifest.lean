import CipherFS.Core.V2.Names
import CipherFS.Framework.HashMap
import CipherFS.Framework.Text

/-!
# The signed update manifest

`parse_manifest` reads five `key=value` lines in any order. What it accepts is
exactly such a text, so a signature over the text is a signature over the five
values.
-/

namespace CipherFS.Update

open V2 (Platform)

/-- `semver::Version` with its order, and how it is read and written. -/
structure Semver (Version : Type) where
  parse : Text → Result Version
  toText : Version → Text

structure Manifest (Version : Type) where
  version : Version
  target : Text
  asset : Text
  size : UInt64
  sha256 : Text
deriving DecidableEq

variable {Version : Type}

/-! ## Parsing -/

/-- One turn of the loop of `parse_manifest`. -/
def insertLine (values : HashMap Text Text) (line : Text) : Result (HashMap Text Text) := do
  let (key, value) ← Result.ofOption (line.splitOnce '=') "Malformed signed update manifest"
  Result.rejectIf (values.lookup key ≠ none) "Duplicate field in signed update manifest"
  return values.insert key value

/-- `HashMap::remove` followed by `context`. -/
def takeField (values : HashMap Text Text) (key text : String) :
    Result (Text × HashMap Text Text) := do
  let value ← Result.ofOption (values.lookup key.toList) text
  return (value, values.erase key.toList)

/-- The check that `sha256` is 64 hexadecimal digits. -/
def isDigest (sha256 : Text) : Bool := sha256.len = 64 ∧ sha256.all Text.isHexDigit

/-- `parse_manifest`. -/
def parseManifest (semver : Semver Version) (text : Text) : Result (Manifest Version) := do
  let values ← text.lines.foldlM insertLine ∅
  Result.rejectIf (values.entries.length ≠ 5) "Unexpected fields in signed update manifest"
  let (sha256, values) ← takeField values "sha256" "Manifest has no sha256"
  Result.rejectIf (¬isDigest sha256) "Manifest sha256 is invalid"
  let (version, values) ← takeField values "version" "Manifest has no version"
  let version ← semver.parse version
  let (target, values) ← takeField values "target" "Manifest has no target"
  let (asset, values) ← takeField values "asset" "Manifest has no asset"
  let (size, _) ← takeField values "size" "Manifest has no size"
  let size ← Text.parseU64 size
  return ⟨version, target, asset, size, sha256⟩

/-! ## What is accepted -/

/-- A line of the manifest. -/
def fieldLine (field : Sigma fun _ : Text => Text) : Text := field.1 ++ '=' :: field.2

/-- The fields of a manifest whose version and size are written as given. -/
def Manifest.fields (m : Manifest Version) (version size : Text) :
    List (Sigma fun _ : Text => Text) :=
  [⟨"sha256".toList, m.sha256⟩, ⟨"version".toList, version⟩, ⟨"target".toList, m.target⟩,
    ⟨"asset".toList, m.asset⟩, ⟨"size".toList, size⟩]

/-- A text whose lines are the five fields of a manifest, in any order. -/
structure Manifest.WrittenIn (semver : Semver Version) (m : Manifest Version) (text : Text) :
    Prop where
  lines : ∃ version size, semver.parse version = .ok m.version ∧
    Text.parseU64 size = .ok m.size ∧
    text.lines.Perm ((m.fields version size).map fieldLine)
  sha256 : isDigest m.sha256

theorem insertLine_eq_ok {values values' : HashMap Text Text} {line : Text}
    (h : insertLine values line = .ok values') :
    ∃ field, values'.entries = field :: values.entries ∧ fieldLine field = line := by
  simp only [insertLine, Result.bind_eq_ok, Result.ofOption_eq_ok, Result.rejectIf_eq_ok,
    Result.pure_eq_ok, not_not] at h
  obtain ⟨⟨key, value⟩, hsplit, _, hfresh, rfl⟩ := h
  refine ⟨⟨key, value⟩, ?_, (Text.eq_of_splitOnce hsplit).symm⟩
  exact AList.entries_insert_of_notMem (AList.lookup_eq_none.mp hfresh)

/-- After the loop the map holds one entry for each line. -/
theorem foldlM_insertLine {lines : List Text} {values : HashMap Text Text}
    (h : lines.foldlM insertLine ∅ = .ok values) :
    values.entries.map fieldLine = lines.reverse := by
  refine Result.foldlM_inv (I := fun done (m : HashMap Text Text) =>
    m.entries.map fieldLine = done.reverse) rfl ?_ h
  rintro done line m m' hm hline
  obtain ⟨field, hentries, rfl⟩ := insertLine_eq_ok hline
  rw [hentries, List.map_cons, hm, List.reverse_append]
  rfl

/-- A field is taken out of the map with its value. -/
theorem takeField_eq_ok {values : HashMap Text Text} {key text : String}
    {r : Text × HashMap Text Text} (h : takeField values key text = .ok r) :
    values.entries.Perm (⟨key.toList, r.1⟩ :: r.2.entries) := by
  simp only [takeField, Result.bind_eq_ok, Result.ofOption_eq_ok, Result.pure_eq_ok] at h
  obtain ⟨value, hvalue, rfl⟩ := h
  exact HashMap.perm_erase_of_lookup hvalue

/-- What `parse_manifest` accepts is a text of exactly the five fields. -/
theorem parseManifest_writtenIn {semver : Semver Version} {text : Text} {m : Manifest Version}
    (h : parseManifest semver text = .ok m) : m.WrittenIn semver text := by
  simp only [parseManifest, Result.bind_eq_ok, Result.rejectIf_eq_ok, Result.pure_eq_ok,
    not_not] at h
  obtain ⟨values, hvalues, _, hlength, ⟨sha256, v₁⟩, hsha256, _, hdigest, ⟨versionText, v₂⟩,
    hversionText, version, hversion, ⟨target, v₃⟩, htarget, ⟨asset, v₄⟩, hasset,
    ⟨sizeText, v₅⟩, hsizeText, size, hsize, rfl⟩ := h
  have hperm : values.entries.Perm
      (⟨"sha256".toList, sha256⟩ :: ⟨"version".toList, versionText⟩ ::
        ⟨"target".toList, target⟩ :: ⟨"asset".toList, asset⟩ :: ⟨"size".toList, sizeText⟩ ::
        v₅.entries) :=
    (takeField_eq_ok hsha256).trans <| ((takeField_eq_ok hversionText).trans <|
      ((takeField_eq_ok htarget).trans <| ((takeField_eq_ok hasset).trans <|
        (takeField_eq_ok hsizeText).cons _).cons _).cons _).cons _
  have hrest : v₅.entries = [] := by
    have := hperm.length_eq
    rw [hlength] at this
    simpa using this
  rw [hrest] at hperm
  refine ⟨⟨versionText, sizeText, hversion, hsize, ?_⟩, hdigest⟩
  have hlines : text.lines.Perm (values.entries.map fieldLine) := by
    rw [foldlM_insertLine hvalues]
    exact text.lines.reverse_perm.symm
  exact hlines.trans (hperm.map fieldLine)

end CipherFS.Update
