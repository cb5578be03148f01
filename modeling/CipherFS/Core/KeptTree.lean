import CipherFS.Core.ContainerTree
import CipherFS.Core.Pack.Accepted
import CipherFS.Core.PasswordRuns
import CipherFS.Core.V2.OpenBytes
import CipherFS.Core.V2.TornWrite

/-!
# The tree of a container across password changes

A password change writes a header over the one that is there. The index and the
chunks stay where they are, and no key of theirs comes from a keyslot, so
whoever opens the container afterwards finds the tree that was in it before.
-/

namespace CipherFS.V2

open Result

variable {Key : Type} {R : Reader Key} {C : Crypto Key (ByteArr 48)} {p q : String}
  {content file file' : Bytes} {o o' : OpenedContainer (ByteArr 48)} {h h' h₁ : Header (ByteArr 48)}
  {ws : List (Header (ByteArr 48))} {dek dek' : ByteArr 32} {len : UInt64} {pos n : Nat}

/-! ## The file behind the header -/

/-- `write_header` on the bytes of the file. -/
def withHeader (file : Bytes) (header : Header (ByteArr 48)) : Bytes := writeAt file 0 header.image

/-- The files have one length, and differ in their headers at most. -/
def SameBehind (file content : Bytes) : Prop :=
  file.length = content.length ∧ ∀ i, headerSize ≤ i → file.getD i 0 = content.getD i 0

theorem SameBehind.readAt (hsame : SameBehind file content) (hpos : headerSize ≤ pos) :
    readAt file pos n = readAt content pos n :=
  readAt_congr hsame.1 fun i hi _ => hsame.2 i (Nat.le_trans hpos hi)

theorem length_withHeader (hlen : headerSize ≤ file.length) :
    (withHeader file h).length = file.length :=
  length_writeAt_of_le (by rwa [length_image, Nat.zero_add])

theorem SameBehind.withHeader (hsame : SameBehind file content) (hlen : headerSize ≤ file.length) :
    SameBehind (withHeader file h) content := by
  refine ⟨(length_withHeader hlen).trans hsame.1, ?_⟩
  intro i hi
  rw [V2.withHeader, getD_writeAt, if_neg, hsame.2 i hi]
  rw [length_image]
  omega

theorem readHeader_eq_ok_iff : readHeader file = .ok h ↔
    headerSize ≤ file.length ∧ (∃ rest, Header.decode (file.take headerSize) = some (h, rest)) ∧
      validateHeaderBasic h (some (UInt64.ofNat file.length)) = .ok () := by
  simp only [readHeader, bind_eq_ok, context_eq_ok, ofOption_eq_ok, Prod.exists]
  constructor
  · rintro ⟨_, hlen, g, rest, hdecode, _, hvalid, hg⟩
    obtain rfl := Except.ok.inj hg
    refine ⟨?_, ⟨rest, hdecode⟩, hvalid⟩
    split at hlen
    · cases hlen
    · rename_i hlong
      exact Nat.not_lt.mp hlong
  · rintro ⟨hlen, ⟨rest, hdecode⟩, hvalid⟩
    exact ⟨(), if_neg (Nat.not_lt.mpr hlen), h, rest, hdecode, (), hvalid, rfl⟩

/-- The header that has been written is the one that is read. -/
theorem readHeader_withHeader (hlen : headerSize ≤ file.length)
    (hvalid : validateHeaderBasic h (some (UInt64.ofNat file.length)) = .ok ()) :
    readHeader (withHeader file h) = .ok h := by
  have himage : withHeader file h = h.image ++ file.drop headerSize := by
    have hne : h.image ≠ [] := List.ne_nil_of_length_pos (by rw [length_image]; decide)
    rw [withHeader, writeAt, if_neg hne, List.take_zero, Nat.zero_sub, Nat.zero_add, length_image]
    rfl
  rw [← length_withHeader (h := h) hlen] at hvalid
  rw [himage] at hvalid ⊢
  exact readHeader_image hvalid

/-! ## Opening under another header -/

/-- What is read behind the header, with the data key. -/
def OpensIndex (R : Reader Key) (file : Bytes) (header : Header (ByteArr 48)) (dek : ByteArr 32)
    (index : ValidatedIndex) : Prop :=
  ∃ encrypted key serialized ix, readAt file headerSize header.indexSize.toNat = some encrypted ∧
    deriveIndexKey R.crypto dek header.containerId = .ok key ∧
    decryptAead R.crypto key header.indexNonce (indexAad R.crypto header) encrypted =
      .ok serialized ∧
    R.codec.decode serialized = some ix ∧ validateIndex R.order R.os header ix = .ok index

/-- Opening takes the header, the key from it, and the index. -/
theorem openBytes_eq_ok : openBytes R file p = .ok o ↔
    o.file = file ∧ readHeader file = .ok o.header ∧
      unlock R.crypto o.header p = .ok (.unlocked o.dek) ∧
      OpensIndex R file o.header o.dek o.index ∧ dataStartOf o.header = .ok o.dataStart := by
  have hzero : (0 : UInt64).toNat = 0 := rfl
  have hsize : (UInt64.ofNat headerSize).toNat = headerSize := rfl
  have hread {bytes : Bytes} : readAt file 0 headerSize = some bytes ↔
      headerSize ≤ file.length ∧ file.take headerSize = bytes := by
    rw [readAt, List.drop_zero, Nat.zero_add]
    have hpos : headerSize ≠ 0 := by decide
    simp [hpos]
  simp only [openBytes, bind_eq_ok, ofOption_eq_ok, readExactAt_eq_ok, readHeader_eq_ok_iff, hzero,
    hsize, hread, Prod.exists]
  constructor
  · rintro ⟨_, ⟨hlen, rfl⟩, header, rest, hdecode, _, hvalid, found, hfound, dek, hdek, encrypted,
      hencrypted, key, hkey, serialized, hserialized, ix, hix, index, hindex, start, hstart, ho⟩
    obtain rfl := Except.ok.inj ho
    have hunlock : found = .unlocked dek := by
      cases found with
      | unlocked => exact congrArg UnlockResult.unlocked (Except.ok.inj hdek)
      | duress => exact absurd hdek bail_ne_ok
      | failed => exact absurd hdek bail_ne_ok
    subst hunlock
    exact ⟨rfl, ⟨hlen, ⟨rest, hdecode⟩, hvalid⟩, hfound,
      ⟨encrypted, key, serialized, ix, hencrypted, hkey, hserialized, hix, hindex⟩, hstart⟩
  · rintro ⟨rfl, ⟨hlen, ⟨rest, hdecode⟩, hvalid⟩, hfound,
      ⟨encrypted, key, serialized, ix, hencrypted, hkey, hserialized, hix, hindex⟩, hstart⟩
    exact ⟨_, ⟨hlen, rfl⟩, o.header, rest, hdecode, (), hvalid, _, hfound, o.dek, rfl, encrypted,
      hencrypted, key, hkey, serialized, hserialized, ix, hix, o.index, hindex, o.dataStart, hstart,
      rfl⟩

/-- Nothing behind the header depends on a keyslot. -/
theorem OpensIndex.slotsOnly {index : ValidatedIndex} (hindex : OpensIndex R content h dek index)
    (hsame : SlotsOnly h h') (hbehind : SameBehind file content) :
    OpensIndex R file h' dek index := by
  obtain ⟨s₀, s₁, rfl⟩ := hsame
  obtain ⟨encrypted, key, serialized, ix, hencrypted, hkey, hserialized, hix, hvalid⟩ := hindex
  refine ⟨encrypted, key, serialized, ix, ?_, hkey, hserialized, hix, hvalid⟩
  exact (hbehind.readAt (Nat.le_refl _)).trans hencrypted

/-- **Other keyslots open the same container.** -/
theorem openBytes_slotsOnly (hopen : openBytes R content p = .ok o)
    (hsame : SlotsOnly o.header h) (hbehind : SameBehind file content)
    (hread : readHeader file = .ok h) (hunlock : unlock R.crypto h q = .ok (.unlocked o.dek)) :
    openBytes R file q = .ok { o with file := file, header := h } := by
  obtain ⟨-, -, -, hindex, hstart⟩ := openBytes_eq_ok.mp hopen
  refine openBytes_eq_ok.mpr ⟨rfl, hread, hunlock, hindex.slotsOnly hsame hbehind, ?_⟩
  obtain ⟨s₀, s₁, rfl⟩ := hsame
  exact hstart

/-- Every file of an open container has its place, behind the header. -/
theorem fileFits_of_openBytes (hopen : openBytes R content p = .ok o) :
    headerSize ≤ o.dataStart.toNat ∧
      ∀ e ∈ o.index.entries.values, e.kind = .file → FileFits o.dataStart e := by
  obtain ⟨-, hread, -, ⟨encrypted, key, serialized, ix, -, -, -, -, hvalid⟩, hstart⟩ :=
    openBytes_eq_ok.mp hopen
  obtain ⟨-, -, hheader⟩ := readHeader_eq_ok_iff.mp hread
  obtain ⟨hacc, hlength⟩ := validateHeaderBasic_eq_ok.mp hheader
  have hlen := checkContainerLength_eq_ok.mp (hlength _ rfl)
  obtain ⟨hidx, hix⟩ := validateIndex_eq_ok.mp hvalid
  obtain ⟨start, hstart', hs⟩ := dataStartOf_ok hacc
  obtain rfl := Except.ok.inj (hstart'.symm.trans hstart)
  refine ⟨by omega, fun e he hk => ?_⟩
  rw [hix] at he
  refine hidx.fileFits ?_ ((hidx.values_indexOf_perm .stored).mem_iff.mp he) hk
  have hlt := (UInt64.ofNat content.length).toNat_lt
  omega

theorem mapM_congr {α β : Type} {f g : α → Result β} {l : List α} (hfg : ∀ a ∈ l, f a = g a) :
    l.mapM f = l.mapM g := by
  induction l with
  | nil => rfl
  | cons a rest ih =>
      rw [List.mapM_cons, List.mapM_cons, hfg a List.mem_cons_self,
        ih fun b hb => hfg b (List.mem_cons_of_mem _ hb)]

/-- **The tree is kept by what is behind the header.** -/
theorem has_slotsOnly (hopen : openBytes R content p = .ok o) (hsame : SlotsOnly o.header h)
    (hbehind : SameBehind file content) (path : Path) (x : Object) :
    ({ o with file := file, header := h } : OpenedContainer (ByteArr 48)).Has R.crypto path x ↔
      o.Has R.crypto path x := by
  obtain ⟨hstart, hfits⟩ := fileFits_of_openBytes hopen
  have hcontent : ∀ e ∈ o.index.entries.values, e.kind = .file →
      fileContent R.crypto { o with file := file, header := h } e = fileContent R.crypto o e := by
    intro e he hk
    have hchunks : e.chunkIndices.mapM
        (decryptChunk R.crypto { o with file := file, header := h } e) =
          e.chunkIndices.mapM (decryptChunk R.crypto o e) := by
      refine mapM_congr fun k hmem => ?_
      have hplace : decryptChunk R.crypto { o with file := file } e k =
          decryptChunk R.crypto { o with file := content } e k := by
        refine decryptChunk_congr (hfits e he hk) (mem_chunkIndices.mp hmem) hbehind.1 ?_
        intro i hi
        exact hbehind.2 i (by have := hi.1; simp only [chunkExtent] at this; omega)
      have hfile : ({ o with file := content } : OpenedContainer (ByteArr 48)) = o := by
        rw [← (openBytes_eq_ok.mp hopen).1]
      rw [hfile] at hplace
      rw [← hplace]
      -- neither the key nor the associated data of a chunk contains a keyslot
      obtain ⟨s₀, s₁, rfl⟩ := hsame
      rfl
    rw [fileContent, fileContent, hchunks]
  have hshows : ∀ e ∈ o.index.entries.values,
      (({ o with file := file, header := h } : OpenedContainer (ByteArr 48)).Shows R.crypto e x ↔
        o.Shows R.crypto e x) := by
    intro e he
    cases x with
    | directory => exact Iff.rfl
    | file bytes =>
        refine and_congr_right fun hk => ?_
        rw [hcontent e he hk]
  constructor
  · rintro ⟨e, he, hpath, hx⟩
    exact ⟨e, he, hpath, (hshows e he).mp hx⟩
  · rintro ⟨e, he, hpath, hx⟩
    exact ⟨e, he, hpath, (hshows e he).mpr hx⟩

/-! ## The passwords -/

/-- A header that a call has stored: the new password unlocks the data key. -/
structure Stored (C : Crypto Key (ByteArr 48)) (len : UInt64) (new : String) (dek : ByteArr 32)
    (h h' : Header (ByteArr 48)) : Prop where
  slots : SlotsOnly h h'
  valid : validateHeaderBasic h' (some len) = .ok ()
  unlocks : unlock C h' new = .ok (.unlocked dek)

variable {old new : String}

theorem FirstWrite.stored (hC : C.Correct) (hfirst : FirstWrite C len old new h h₁)
    (hunlock : unlock C h old = .ok (.unlocked dek)) : Stored C len new dek h h₁ := by
  obtain ⟨key, -, -, -, hadmits, -⟩ := id hfirst
  obtain ⟨slot, rfl, hparams, hopen, hnewest⟩ := slotUnlocks_firstWrite hC hfirst hunlock
  have hacc : HeaderAccepted (h.setSlot (inactiveSlot h) slot) :=
    (validateHeaderBasic_eq_ok.mp hadmits.valid).1.setSlot fun _ => hparams
  exact ⟨SlotsOnly.refl.setSlot _ _, validateHeaderBasic_setSlot hadmits.valid hacc,
    unlock_of_newest hacc hopen (by rwa [Header.slot_setSlot])⟩

theorem SecondWrite.stored (hC : C.Correct) (hfirst : FirstWrite C len old new h h₁)
    (hsecond : SecondWrite h h₁ h') (hunlock : unlock C h old = .ok (.unlocked dek)) :
    Stored C len new dek h h' := by
  have hstored := hfirst.stored hC hunlock
  obtain ⟨slot, rfl, -, hopen, -⟩ := slotUnlocks_firstWrite hC hfirst hunlock
  obtain ⟨r, rfl⟩ := hsecond
  have hoff : (KeySlot.randomDisabled r).generation = 0 := rfl
  have hacc : HeaderAccepted ((h.setSlot (inactiveSlot h) slot).setSlot (inactiveSlot h).other
      (KeySlot.randomDisabled r)) :=
    (validateHeaderBasic_eq_ok.mp hstored.valid).1.setSlot fun hon =>
      absurd hon (by rw [hoff]; decide)
  have hkept : SlotUnlocks C (h.setSlot (inactiveSlot h) slot) (inactiveSlot h).other.other
      new dek := by
    rwa [SlotIndex.other_other]
  have hopen₂ := hkept.setSlot (s := KeySlot.randomDisabled r)
  refine ⟨hstored.slots.setSlot _ _, validateHeaderBasic_setSlot hstored.valid hacc,
    unlock_of_newest hacc hopen₂ ?_⟩
  rw [SlotIndex.other_other, Header.slot_setSlot, hoff]
  exact hopen₂.1

/-- The call does not wipe the keyslots and does not change to another data key:
its old password is not the duress password and unlocks no other key. -/
structure KeepsKey (C : Crypto Key (ByteArr 48)) (dek : ByteArr 32) (h : Header (ByteArr 48))
    (old : String) : Prop where
  not_duress : ¬IsDuress C h old
  key : ∀ dek', unlock C h old = .ok (.unlocked dek') → dek' = dek

/-- Wherever such a call stops, it has written nothing, or a header last that it
has stored. -/
theorem Progress.stored (hC : C.Correct) (hkeeps : KeepsKey C dek h old)
    (hp : Progress C len old new h ws h') :
    ws = [] ∨ ∃ before, ws = before ++ [h'] ∧ Stored C len new dek h h' := by
  have hunlock {h₁ : Header (ByteArr 48)} (hfirst : FirstWrite C len old new h h₁) :
      unlock C h old = .ok (.unlocked dek) := by
    obtain ⟨key, -, -, -, hadmits, -⟩ := hfirst
    rw [← hkeeps.key key hadmits.unlocked]
    exact hadmits.unlocked
  cases hp with
  | unchanged => exact .inl rfl
  | first hfirst => exact .inr ⟨[], rfl, hfirst.stored hC (hunlock hfirst)⟩
  | second hfirst hsecond =>
      exact .inr ⟨[_], rfl, hsecond.stored hC hfirst (hunlock hfirst)⟩
  | wiped hduress => exact absurd (isDuress_of_unlock hduress) hkeeps.not_duress

/-! ## Runs of calls -/

/-- The file after the header writes of a call. -/
def withHeaders (file : Bytes) (headers : List (Header (ByteArr 48))) : Bytes :=
  headers.foldl withHeader file

theorem SameBehind.withHeaders (hsame : SameBehind file content) (hlen : headerSize ≤ file.length) :
    SameBehind (withHeaders file ws) content := by
  induction ws generalizing file with
  | nil => exact hsame
  | cons header rest ih =>
      exact ih (hsame.withHeader hlen) (by rwa [length_withHeader hlen])

theorem SameBehind.refl : SameBehind file file := ⟨rfl, fun _ _ => rfl⟩

/-- What a call of `change_password` makes of the file whose header it reads. -/
def Call.onFile (C : Crypto Key (ByteArr 48)) (file : Bytes) (c : Call (ByteArr 48)) :
    Option Bytes := do
  let header ← (readHeader file).toOption
  let r ← c.run C (UInt64.ofNat file.length) header
  some (withHeaders file r.2.writes)

/-- The file is the container with keyslots of its own. -/
structure Rekeyed (C : Crypto Key (ByteArr 48)) (o : OpenedContainer (ByteArr 48)) (file : Bytes)
    (h : Header (ByteArr 48)) : Prop where
  read : readHeader file = .ok h
  slots : SlotsOnly o.header h
  behind : SameBehind file o.file
  unlocks : ∃ q, unlock C h q = .ok (.unlocked o.dek)

/-- What a call has stored is on disk. -/
theorem Rekeyed.withHeaders (hr : Rekeyed C o file h) (before : List (Header (ByteArr 48)))
    (hs : Stored C (UInt64.ofNat file.length) q o.dek h h') :
    Rekeyed C o (withHeaders file (before ++ [h'])) h' := by
  have hlen := (readHeader_eq_ok_iff.mp hr.read).1
  have hbefore : SameBehind (V2.withHeaders file before) file := SameBehind.refl.withHeaders hlen
  have hlong : headerSize ≤ (V2.withHeaders file before).length := by rwa [hbefore.1]
  refine ⟨?_, hr.slots.trans hs.slots, hr.behind.withHeaders hlen, q, hs.unlocks⟩
  rw [V2.withHeaders, List.foldl_append]
  refine readHeader_withHeader hlong ?_
  have hvalid := hs.valid
  rwa [← hbefore.1] at hvalid

/-- The call, on the header of the file as it is now, keeps the data key. -/
def Call.Keeps (C : Crypto Key (ByteArr 48)) (dek : ByteArr 32) (file : Bytes)
    (c : Call (ByteArr 48)) : Prop :=
  ∀ h, readHeader file = .ok h → KeepsKey C dek h c.oldPassword

/-- Wherever a call stops, the file is the container with keyslots of its own. -/
theorem Rekeyed.call (hC : C.Correct) {c : Call (ByteArr 48)} (hkeeps : c.Keeps C o.dek file)
    (hr : Rekeyed C o file h) (hstep : Call.onFile C file c = some file') :
    ∃ h', Rekeyed C o file' h' := by
  simp only [Call.onFile, hr.read, Except.toOption, Option.bind_eq_bind, Option.bind_some,
    Option.bind_eq_some_iff, Option.some.injEq] at hstep
  obtain ⟨⟨t, v⟩, hcall, rfl⟩ := hstep
  rcases (Call.run_spec hcall).1.stored hC (hkeeps h hr.read) with hnone | ⟨before, hws, hs⟩
  · rw [hnone]
    exact ⟨h, hr⟩
  · rw [hws]
    exact ⟨_, hr.withHeaders before hs⟩

/-- Every call of the run keeps the data key, on the file that it finds. -/
def AllKeep (C : Crypto Key (ByteArr 48)) (dek : ByteArr 32) (content : Bytes)
    (calls : List (Call (ByteArr 48))) : Prop :=
  ∀ front c back m, calls = front ++ c :: back →
    CipherFS.run (Call.onFile C) content front = some m → c.Keeps C dek m

theorem Rekeyed.run (hC : C.Correct) {calls : List (Call (ByteArr 48))} :
    ∀ {content : Bytes} {h : Header (ByteArr 48)}, AllKeep C o.dek content calls →
      Rekeyed C o content h → CipherFS.run (Call.onFile C) content calls = some file →
      ∃ h', Rekeyed C o file h' := by
  induction calls with
  | nil =>
      intro content h _ hr hrun
      obtain rfl := Option.some.inj hrun
      exact ⟨h, hr⟩
  | cons c rest ih =>
      intro content h hkeep hr hrun
      rw [run_cons, Option.bind_eq_some_iff] at hrun
      obtain ⟨m, hstep, hrun⟩ := hrun
      obtain ⟨h', hr'⟩ := hr.call hC (hkeep [] c rest content rfl rfl) hstep
      refine ih (fun front c' back m' hsplit hfront => ?_) hr' hrun
      refine hkeep (c :: front) c' back m' (by rw [hsplit]; rfl) ?_
      rw [run_cons, hstep]
      exact hfront

/-- **Password changes keep the tree.** However calls that keep the data key have
ended, some password opens the container with that key, whichever does finds the
tree that was in it, and the new password of a call that succeeds is one. -/
theorem password_changes_keep_tree (hC : R.crypto.Correct)
    (hopen : openBytes R content p = .ok o) {calls : List (Call (ByteArr 48))}
    (hkeep : AllKeep R.crypto o.dek content calls)
    (hrun : CipherFS.run (Call.onFile R.crypto) content calls = some file) :
    (∃ q o', openBytes R file q = .ok o' ∧ o'.dek = o.dek) ∧
    (∀ q o', openBytes R file q = .ok o' → o'.dek = o.dek →
      ∀ path x, o'.Has R.crypto path x ↔ o.Has R.crypto path x) ∧
    ∀ h (c : Call (ByteArr 48)) v, c.Keeps R.crypto o.dek file →
      readHeader file = .ok h →
      c.run R.crypto (UInt64.ofNat file.length) h = some (.done, v) →
      ∃ o', openBytes R (withHeaders file v.writes) c.newPassword = .ok o' ∧ o'.dek = o.dek := by
  obtain ⟨hfile, hread, hunlock, -⟩ := openBytes_eq_ok.mp hopen
  have hstart : Rekeyed R.crypto o content o.header :=
    ⟨hread, .refl, by rw [hfile]; exact .refl, p, hunlock⟩
  -- every call leaves the container with keyslots of its own
  obtain ⟨h, hr⟩ := hstart.run hC hkeep hrun
  have hbehind : SameBehind file content := hfile ▸ hr.behind
  refine ⟨?_, ?_, ?_⟩
  · obtain ⟨q, hq⟩ := hr.unlocks
    exact ⟨q, _, openBytes_slotsOnly hopen hr.slots hbehind hr.read hq, rfl⟩
  · intro q o' ho' hdek path x
    -- what has the data key is the container that the keyslots were made for
    obtain ⟨-, hread', hunlock', -⟩ := openBytes_eq_ok.mp ho'
    have hh : o'.header = h := Except.ok.inj (hread'.symm.trans hr.read)
    rw [hh, hdek] at hunlock'
    have hsame := openBytes_slotsOnly hopen hr.slots hbehind hr.read hunlock'
    obtain rfl := Except.ok.inj (ho'.symm.trans hsame)
    exact has_slotsOnly hopen hr.slots hbehind path x
  · intro g c v hc hg hcall
    obtain rfl := Except.ok.inj (hr.read.symm.trans hg)
    obtain ⟨hprogress, hfin⟩ := Call.run_spec hcall
    obtain ⟨h₁, h₂, -, -, hws, -⟩ := hfin rfl
    rcases hprogress.stored hC (hc h hr.read) with hnone | ⟨before, hlast, hs⟩
    · rw [hws] at hnone
      cases hnone
    · have hr' := hr.withHeaders before hs
      rw [← hlast] at hr'
      exact ⟨_, openBytes_slotsOnly hopen hr'.slots (hfile ▸ hr'.behind) hr'.read hs.unlocks, rfl⟩

/-- Primitives that leave the index and the data in the clear. -/
def clearVault : Crypto (ByteArr 16) (ByteArr 48) where
  __ := vaultCrypto
  hkdf _ _ _ := some (ByteArr.zero 16)
  encrypt _ _ _ m := some (m ++ List.replicate 16 0)
  decrypt _ _ _ c := some (c.take (c.length - 16))

theorem clearVault_correct : clearVault.Correct where
  unwrap_wrap := by
    intro k n a m w hw
    exact vaultCrypto_unwrap_wrap (n := n) (a := a) hw
  decrypt_encrypt := by
    intro k n a m b hb
    exact clearCrypto_correct.decrypt_encrypt (k := ()) (n := n) (a := a) hb
  length_encrypt := by
    intro k n a m b hb
    exact clearCrypto_correct.length_encrypt (k := ()) (n := n) (a := a) hb

def clearVaultReader : Reader (ByteArr 16) :=
  ⟨clearVault, ⟨fun _ => none, fun _ => some ⟨Pack.sampleScan.entries⟩⟩, .stored, .unix,
    .ascii, id⟩

/-- A container with one file, of one byte. -/
def smallContainer : Bytes :=
  ((Pack.packHeader clearVault "old" none .default 17 17 2 zeroHeaderRandom).toOption.getD
    (Pack.blankHeader 17 17 2 zeroHeaderRandom)).image ++
      ([1] ++ List.replicate 16 0 ++ ([7] ++ List.replicate 16 0))

/-- A password change that runs to its end. -/
def smallCall : Call (ByteArr 48) :=
  ⟨"old", "new", List.replicate 11 (.task (.here ⟨zeroSlotRandom, none, false⟩))⟩

theorem password_changes_keep_tree_sample : ∃ o file,
    openBytes clearVaultReader smallContainer "old" = .ok o ∧
    CipherFS.run (Call.onFile clearVault) smallContainer [smallCall] = some file ∧
    (∃ q o', openBytes clearVaultReader file q = .ok o' ∧ o'.dek = o.dek) ∧
    ∀ q o', openBytes clearVaultReader file q = .ok o' → o'.dek = o.dek →
      ∀ path x, o'.Has clearVault path x ↔ o.Has clearVault path x := by
  have hruns : (CipherFS.run (Call.onFile clearVault) smallContainer [smallCall]).isSome := by
    decide +kernel
  have hopens : (openBytes clearVaultReader smallContainer "old").toOption.any (fun o =>
      !o.header.duress.enabled) = true := by decide +kernel
  obtain ⟨file, hrun⟩ := Option.isSome_iff_exists.mp hruns
  obtain ⟨o, ho, henabled⟩ := (Option.any_eq_true _ _).mp hopens
  have hopen : openBytes clearVaultReader smallContainer "old" = .ok o := by
    cases hres : openBytes clearVaultReader smallContainer "old" with
    | ok o' =>
        rw [hres] at ho
        exact congrArg Except.ok (Option.some.inj ho)
    | error e =>
        rw [hres] at ho
        cases ho
  obtain ⟨-, hread, hunlock, -⟩ := openBytes_eq_ok.mp hopen
  have hkeep : AllKeep clearVault o.dek smallContainer [smallCall] := by
    intro front c back m hsplit hfront
    have hfirst : front = [] ∧ c = smallCall := by
      cases front with
      | nil => exact ⟨rfl, (List.cons.inj hsplit).1.symm⟩
      | cons x xs =>
          have hlen := congrArg List.length hsplit
          simp only [List.length_cons, List.length_nil, List.length_append] at hlen
          omega
    obtain ⟨rfl, rfl⟩ := hfirst
    obtain rfl : smallContainer = m := Option.some.inj hfront
    intro h hh
    obtain rfl := Except.ok.inj (hread.symm.trans hh)
    refine ⟨fun hduress => ?_, fun dek' hdek' => ?_⟩
    · rw [hduress.1] at henabled
      cases henabled
    · have hsame := hdek'.symm.trans hunlock
      cases hsame
      rfl
  obtain ⟨hsome, hsame, -⟩ :=
    password_changes_keep_tree clearVault_correct hopen hkeep hrun
  exact ⟨o, file, hopen, hrun, hsome, hsame⟩

end CipherFS.V2
