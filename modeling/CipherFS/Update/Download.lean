import CipherFS.Update.Manifest

/-!
# Downloading an update

The release, the manifest, its signature and the binary come in four requests
from a server that may answer each as it likes, in the light of all requests so
far. `download_portable_update` returns an update only where one manifest signed
by a trusted key vouches for it.
-/

namespace CipherFS.Update

open V2 (Platform)

/-! ## What a build knows -/

/-- `TARGET`. -/
def target : Platform → Text
  | .unix => "x86_64-unknown-linux-musl".toList
  | .windows => "x86_64-pc-windows-msvc".toList

/-- `BINARY_ASSET`. -/
def binaryAsset : Platform → Text
  | .unix => "cipherfs".toList
  | .windows => "cipherfs.exe".toList

/-- `MANIFEST_ASSET`. -/
def manifestAsset : Platform → Text
  | .unix => "cipherfs-linux-amd64.manifest".toList
  | .windows => "cipherfs-windows-amd64.manifest".toList

/-- `SIGNATURE_ASSET`. -/
def signatureAsset : Platform → Text
  | .unix => "cipherfs-linux-amd64.manifest.minisig".toList
  | .windows => "cipherfs-windows-amd64.manifest.minisig".toList

/-- What is fixed when the program is built: `CIPHERFS_MINISIGN_PUBLIC_KEY`, empty
where it was not set, and `CARGO_PKG_VERSION`. -/
structure Build where
  platform : Platform
  publicKey : Text
  packageVersion : Text

structure GithubAsset where
  name : Text
  browserDownloadUrl : Text

structure GithubRelease where
  tagName : Text
  body : Option Text
  assets : List GithubAsset

/-- The libraries: `minisign_verify`, `sha2`, `serde_json` and `semver`. -/
structure Libraries (Version Signature PublicKey : Type) where
  semver : Semver Version
  decodeSignature : Text → Result Signature
  fromBase64 : Text → Option PublicKey
  verify : PublicKey → Bytes → Signature → (allowLegacy : Bool) → Bool
  digest : Bytes → Bytes
  releaseOfJson : Bytes → Result GithubRelease

structure VerifiedPortableUpdate where
  version : Text
  currentVersion : Text
  releaseNotes : Option Text
  bytes : Bytes
deriving DecidableEq

/-! ## The server -/

/-- What comes back on one request. The connection may break after the bytes of
the body. -/
structure Response where
  status : Nat
  contentLength : Option UInt64
  body : Bytes
  broken : Option Error

/-- A server answers a request, the last of the list, as it likes. -/
abbrev Server := List Text → Result Response

/-- A client remembers what it has requested. -/
abbrev Client := StateT (List Text) Result

theorem bind_run_eq_ok {α β : Type} {m : Client α} {f : α → Client β} {requests : List Text}
    {r : β × List Text} : (m >>= f).run requests = .ok r ↔
      ∃ a requests', m.run requests = .ok (a, requests') ∧ (f a).run requests' = .ok r := by
  rw [StateT.run_bind, Result.bind_eq_ok]
  constructor
  · rintro ⟨⟨a, requests'⟩, hm, hf⟩
    exact ⟨a, requests', hm, hf⟩
  · rintro ⟨a, requests', hm, hf⟩
    exact ⟨(a, requests'), hm, hf⟩

theorem lift_run_eq_ok {α : Type} {x : Result α} {requests requests' : List Text} {a : α} :
    (liftM x : Client α).run requests = .ok (a, requests') ↔ x = .ok a ∧ requests' = requests := by
  cases x with
  | ok b =>
      show (Except.ok (b, requests) : Result _) = .ok (a, requests') ↔ _
      simp [eq_comm]
  | error e =>
      show (Except.error e : Result _) = .ok (a, requests') ↔ _
      simp

theorem pure_run_eq_ok {α : Type} {requests requests' : List Text} {a b : α} :
    (pure a : Client α).run requests = .ok (b, requests') ↔ a = b ∧ requests' = requests := by
  rw [StateT.run_pure, Result.pure_eq_ok, Prod.mk.injEq]
  simp [eq_comm]

/-- `client.get(url).send()?.error_for_status()?`. -/
def get (server : Server) (url : Text) : Client Response := do
  modify fun requests => requests ++ [url]
  let response ← server (← MonadState.get)
  Result.rejectIf (400 ≤ response.status ∧ response.status < 600) "HTTP status"
  return response

/-- `take(limit).read_to_end`: an error beyond the limit is not seen. -/
def readToEnd (response : Response) (limit : Nat) : Result Bytes :=
  match response.broken with
  | some e => if response.body.length < limit then .error e else .ok (response.body.take limit)
  | none => .ok (response.body.take limit)

/-- The bytes that one asset may have. -/
def downloadLimit : Nat := 512 * 1024 * 1024

/-- `download`. -/
def download (server : Server) (url : Text) : Client Bytes := do
  let response ← get server url
  Result.rejectIf (response.contentLength.any fun length => downloadLimit < length.toNat)
    "Update asset exceeds download safety limit"
  let bytes ← readToEnd response (downloadLimit + 1)
  Result.rejectIf (bytes.length > downloadLimit) "Update asset exceeds download safety limit"
  return bytes

/-- `asset_url`. -/
def assetUrl (release : GithubRelease) (name : Text) : Result Text :=
  Result.ofOption ((release.assets.find? fun asset => asset.name = name).map
    GithubAsset.browserDownloadUrl)
    ("Release is missing required signed asset " ++ String.ofList name)

/-! ## The checks -/

section Checks

variable {Version Signature PublicKey : Type} (lib : Libraries Version Signature PublicKey)

/-- The keys that `verify_manifest_signature` tries. -/
def trustedKeys (keys : Text) : List Text :=
  ((keys.splitOn ',').map Text.trim).filter (· ≠ [])

/-- A key accepts the manifest. -/
def keyAccepts (manifest : Bytes) (signature : Signature) (encoded : Text) : Bool :=
  (lib.fromBase64 encoded).any fun key => lib.verify key manifest signature false

/-- `verify_manifest_signature`. -/
def verifyManifestSignature (keys : Text) (manifest : Bytes) (signature : Text) :
    Result Unit := do
  let signature ← (lib.decodeSignature signature).context "Malformed update signature"
  Result.rejectIf (¬(trustedKeys keys).any (keyAccepts lib manifest signature))
    "Update manifest signature verification failed"

/-- `validate_manifest_for_update`. -/
def validateManifestForUpdate [LinearOrder Version] (manifest : Manifest Version)
    (latest current : Version) (target binaryAsset : Text) : Result Unit := do
  Result.rejectIf (latest ≤ current) "Refusing a non-upgrade release"
  Result.rejectIf (manifest.version ≠ latest ∨ manifest.target ≠ target ∨
    manifest.asset ≠ binaryAsset ∨ manifest.size = 0)
    "Signed update manifest does not match this release/target"

/-- `validate_downloaded_binary`. -/
def validateDownloadedBinary (binary : Bytes) (manifest : Manifest Version) : Result Unit := do
  Result.rejectIf (UInt64.ofNat binary.length ≠ manifest.size)
    "Downloaded binary size does not match signed manifest"
  Result.rejectIf (¬Text.eqIgnoreAsciiCase (Text.hexEncode (lib.digest binary)) manifest.sha256)
    "Downloaded binary hash does not match signed manifest"

end Checks

/-! ## The pipeline -/

section Pipeline

variable {Version Signature PublicKey : Type} [LinearOrder Version]
  (lib : Libraries Version Signature PublicKey) (build : Build) (server : Server)

/-- `response.json()`. -/
def json (response : Response) : Result GithubRelease :=
  match response.broken with
  | some e => .error e
  | none => lib.releaseOfJson response.body

/-- The part of `download_portable_update` after the versions were compared. -/
def downloadRelease (release : GithubRelease) (latest current : Version) :
    Client VerifiedPortableUpdate := do
  let manifestUrl ← assetUrl release (manifestAsset build.platform)
  let signatureUrl ← assetUrl release (signatureAsset build.platform)
  let manifestBytes ← download server manifestUrl
  let signatureBytes ← download server signatureUrl
  let signatureText ← (Text.fromUtf8 signatureBytes).context "Update signature is not UTF-8"
  verifyManifestSignature lib build.publicKey manifestBytes signatureText
  let manifestText ← (Text.fromUtf8 manifestBytes).context "Update manifest is not UTF-8"
  let manifest ← parseManifest lib.semver manifestText
  validateManifestForUpdate manifest latest current (target build.platform)
    (binaryAsset build.platform)
  let binaryUrl ← assetUrl release manifest.asset
  let binary ← download server binaryUrl
  validateDownloadedBinary lib binary manifest
  return ⟨lib.semver.toText latest, lib.semver.toText current, release.body, binary⟩

/-- The address of the latest release. -/
def latestReleaseUrl : Text :=
  "https://api.github.com/repos/TW-RF54732/CipherFS/releases/latest".toList

/-- `download_portable_update`, as one client's requests. -/
def portableUpdate : Client (Option VerifiedPortableUpdate) := do
  Result.rejectIf (build.publicKey = [])
    "This build has no trusted update signing key; download releases manually from GitHub"
  let response ← get server latestReleaseUrl
  let release ← json lib response
  let latest ← (lib.semver.parse (release.tagName.trimStartMatches 'v')).context
    "Latest release tag is not a semantic version"
  let current ← lib.semver.parse build.packageVersion
  if latest ≤ current then
    return none
  else
    return some (← downloadRelease lib build server release latest current)

/-- `download_portable_update`. -/
def downloadPortableUpdate : Result (Option VerifiedPortableUpdate) :=
  (portableUpdate lib build server).run' []

end Pipeline

/-! ## What an update is vouched for by -/

section Vouching

variable {Version Signature PublicKey : Type} (lib : Libraries Version Signature PublicKey)
  (build : Build)

/-- A trusted key of the build accepts the bytes, under some signature. -/
def Signed (bytes : Bytes) : Prop :=
  ∃ encoded ∈ trustedKeys build.publicKey, ∃ key signature,
    lib.fromBase64 encoded = some key ∧ lib.verify key bytes signature false = true

/-- A manifest names exactly this update, as one newer than the running build. -/
structure Vouches [LinearOrder Version] (m : Manifest Version)
    (update : VerifiedPortableUpdate) : Prop where
  version : update.version = lib.semver.toText m.version
  newer : ∃ current, lib.semver.parse build.packageVersion = .ok current ∧ current < m.version
  target : m.target = target build.platform
  asset : m.asset = binaryAsset build.platform
  size_ne_zero : m.size ≠ 0
  size : m.size.toNat = update.bytes.length
  sha256 : Text.decodeHex m.sha256 = some (lib.digest update.bytes)

variable {lib build}

theorem signed_of_verifyManifestSignature {manifest : Bytes} {signature : Text}
    (h : verifyManifestSignature lib build.publicKey manifest signature = .ok ()) :
    Signed lib build manifest := by
  simp only [verifyManifestSignature, Result.bind_eq_ok, Result.context_eq_ok,
    Result.rejectIf_eq_ok, not_not, List.any_eq_true, keyAccepts, Option.any_eq_true] at h
  obtain ⟨sig, _, encoded, hmem, key, hkey, hverify⟩ := h
  exact ⟨encoded, hmem, key, sig, hkey, hverify⟩

theorem validateManifestForUpdate_eq_ok [LinearOrder Version] {m : Manifest Version}
    {latest current : Version} {target binaryAsset : Text} :
    validateManifestForUpdate m latest current target binaryAsset = .ok () ↔
      current < latest ∧ m.version = latest ∧ m.target = target ∧ m.asset = binaryAsset ∧
        m.size ≠ 0 := by
  simp [validateManifestForUpdate]

/-- The size and the digest of the manifest are those of the binary. -/
theorem validateDownloadedBinary_eq_ok {binary : Bytes} {m : Manifest Version}
    (hlength : binary.length ≤ downloadLimit) (h : validateDownloadedBinary lib binary m = .ok ()) :
    m.size.toNat = binary.length ∧ Text.decodeHex m.sha256 = some (lib.digest binary) := by
  simp only [validateDownloadedBinary, Result.bind_eq_ok, Result.rejectIf_eq_ok, not_not] at h
  obtain ⟨_, hsize, hdigest⟩ := h
  constructor
  · rw [← hsize]
    refine UInt64.toNat_ofNat_of_lt' (lt_of_le_of_lt hlength ?_)
    decide
  · exact Text.decodeHex_of_eqIgnoreAsciiCase hdigest

theorem length_le_of_download {server : Server} {url : Text} {requests requests' : List Text}
    {bytes : Bytes} (h : (download server url).run requests = .ok (bytes, requests')) :
    bytes.length ≤ downloadLimit := by
  simp only [download, bind_run_eq_ok, lift_run_eq_ok, pure_run_eq_ok, Result.rejectIf_eq_ok,
    not_lt] at h
  obtain ⟨response, _, _, _, _, _, read, _, _, _, _, ⟨hread, _⟩, rfl, _⟩ := h
  exact hread

/-- What follows the comparison of versions returns only what a signed manifest
vouches for. -/
theorem vouches_of_downloadRelease [LinearOrder Version] {server : Server}
    {release : GithubRelease} {latest current : Version} {requests requests' : List Text}
    {update : VerifiedPortableUpdate}
    (hcurrent : lib.semver.parse build.packageVersion = .ok current)
    (h : (downloadRelease lib build server release latest current).run requests =
      .ok (update, requests')) :
    ∃ bytes text m, Signed lib build bytes ∧ Text.fromUtf8 bytes = .ok text ∧
      m.WrittenIn lib.semver text ∧ Vouches lib build m update := by
  simp only [downloadRelease, bind_run_eq_ok, lift_run_eq_ok, pure_run_eq_ok,
    Result.context_eq_ok] at h
  obtain ⟨_, _, _, _, _, _, manifestBytes, _, _, signatureBytes, _, _, signatureText, _, _,
    ⟨⟩, _, ⟨hsigned, _⟩, manifestText, _, ⟨htext, _⟩, m, _, ⟨hparse, _⟩, ⟨⟩, _, ⟨hvalid, _⟩,
    _, _, _, binary, _, hbinary, ⟨⟩, _, ⟨hchecked, _⟩, rfl, _⟩ := h
  obtain ⟨hnewer, rfl, htarget, hasset, hsize⟩ := validateManifestForUpdate_eq_ok.mp hvalid
  obtain ⟨hlength, hdigest⟩ :=
    validateDownloadedBinary_eq_ok (length_le_of_download hbinary) hchecked
  exact ⟨manifestBytes, manifestText, m, signed_of_verifyManifestSignature hsigned, htext,
    parseManifest_writtenIn hparse,
    ⟨rfl, ⟨current, hcurrent, hnewer⟩, htarget, hasset, hsize, hlength, hdigest⟩⟩

end Vouching

/-! ## Authenticity -/

/-- **An update that is returned is vouched for by a manifest that a trusted key
signed, whatever the server answers.** -/
theorem downloaded_update_authentic {Version Signature PublicKey : Type} [LinearOrder Version]
    (lib : Libraries Version Signature PublicKey) (build : Build) (server : Server)
    {update : VerifiedPortableUpdate}
    (h : downloadPortableUpdate lib build server = .ok (some update)) :
    ∃ bytes text m, Signed lib build bytes ∧ Text.fromUtf8 bytes = .ok text ∧
      m.WrittenIn lib.semver text ∧ Vouches lib build m update := by
  cases hrun : (portableUpdate lib build server).run [] with
  | error e =>
      rw [downloadPortableUpdate, StateT.run'_eq, hrun] at h
      cases h
  | ok r =>
      obtain ⟨found, requests⟩ := r
      rw [downloadPortableUpdate, StateT.run'_eq, hrun] at h
      obtain rfl : found = some update := Except.ok.inj h
      simp only [portableUpdate, bind_run_eq_ok, lift_run_eq_ok] at hrun
      obtain ⟨⟨⟩, _, _, response, _, _, release, _, _, latest, _, _, current, _, ⟨hcurrent, _⟩,
        hrest⟩ := hrun
      split at hrest
      · cases (pure_run_eq_ok.mp hrest).1
      · obtain ⟨update', _, hrelease, hreturn⟩ := bind_run_eq_ok.mp hrest
        obtain ⟨hupdate, _⟩ := pure_run_eq_ok.mp hreturn
        cases hupdate
        exact vouches_of_downloadRelease hcurrent hrelease

/-- Plain `major.minor.patch` versions. -/
def plainSemver : Semver (ℕ ×ₗ ℕ ×ₗ ℕ) where
  parse text := do
    match text.splitOn '.' with
    | [major, minor, patch] =>
        return toLex ((← Text.parseU64 major).toNat,
          toLex ((← Text.parseU64 minor).toNat, (← Text.parseU64 patch).toNat))
    | _ => Result.bail "unexpected end of input while parsing major version number"
  toText version :=
    let (major, rest) := ofLex version
    Nat.toDigits 10 major ++ '.' :: Nat.toDigits 10 (ofLex rest).1 ++
      '.' :: Nat.toDigits 10 (ofLex rest).2

/-- The SHA-256 digest of `MZ`. -/
def sampleDigest : Text :=
  "9b8db510ef42b8ed54a3712636fda55a4f8cfcd5493e20b74ab00cd4f3979f2d".toList

def sampleManifest : String :=
  "version=3.2.0\ntarget=x86_64-pc-windows-msvc\nasset=cipherfs.exe\nsize=2\nsha256=" ++
    String.ofList sampleDigest ++ "\n"

/-- Libraries on one release: a signature names its key, and only the binary of
the release has a digest. -/
def sampleLibraries : Libraries (ℕ ×ₗ ℕ ×ₗ ℕ) Text Text where
  semver := plainSemver
  decodeSignature text := .ok text
  fromBase64 encoded := some encoded
  verify key bytes signature _ := key = signature ∧ bytes = Text.utf8 sampleManifest
  digest bytes := if bytes = Text.utf8 "MZ" then (Text.decodeHex sampleDigest).getD [] else []
  releaseOfJson _ := .ok ⟨"v3.2.0".toList, none,
    [⟨manifestAsset .windows, "manifest".toList⟩, ⟨signatureAsset .windows, "signature".toList⟩,
      ⟨binaryAsset .windows, "binary".toList⟩]⟩

def sampleServer : Server := fun requests =>
  let body := if requests.getLast? = some "manifest".toList then Text.utf8 sampleManifest
    else if requests.getLast? = some "signature".toList then Text.utf8 "key"
    else Text.utf8 "MZ"
  .ok ⟨200, some (UInt64.ofNat body.length), body, none⟩

def sampleBuild : Build := ⟨.windows, "old,key".toList, "3.1.0".toList⟩

theorem downloaded_update_authentic_sample :
    ∃ bytes text m, Signed sampleLibraries sampleBuild bytes ∧ Text.fromUtf8 bytes = .ok text ∧
      m.WrittenIn sampleLibraries.semver text ∧
      Vouches sampleLibraries sampleBuild m ⟨"3.2.0".toList, "3.1.0".toList, none, Text.utf8 "MZ"⟩ :=
  downloaded_update_authentic sampleLibraries sampleBuild sampleServer (by decide +kernel)

end CipherFS.Update
