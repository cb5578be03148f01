import CipherFS.Core.PasswordRuns
import CipherFS.Core.V2.HeaderCodec

/-!
# Header writes that are cut off

What is on disk when only the first bytes of a header image have been written.
The keyslots have no fixed place in the image: the new slot moves whatever
stands behind it, so a cut can leave bytes that belong to no header. The
container survives a cut at which the two encodings of the slot are in step.
-/

namespace CipherFS.V2

open MsgPack Result

variable {Key : Type} {C : Crypto Key (ByteArr 48)} {h h₁ h₂ g : Header (ByteArr 48)}
  {p old new : String} {dek : ByteArr 32} {len : UInt64} {i : SlotIndex}
  {s : KeySlot (ByteArr 48)} {k : Nat} {body : Bytes}

/-! ## What the file holds -/

theorem Header.encode_eq (h : Header (ByteArr 48)) (i : SlotIndex) :
    h.encode = (h.tokensBefore i).flatten ++
      ((h.slot i).tokens.flatten ++ (h.tokensAfter i).flatten) := by
  cases i <;> simp [Header.encode, Header.tokens, Header.tokensBefore, Header.tokensAfter,
    Header.slot]

theorem Header.tokensBefore_setSlot : (h.setSlot i s).tokensBefore i = h.tokensBefore i := by
  cases i <;> rfl

theorem Header.tokensAfter_setSlot : (h.setSlot i s).tokensAfter i = h.tokensAfter i := by
  cases i <;> rfl

/-- Where the cut is, counted from the start of the slot. -/
def cutInSlot (h : Header (ByteArr 48)) (i : SlotIndex) (k : Nat) : Nat :=
  k - (h.tokensBefore i).flatten.length

/-- The bytes of a slot after a cut. -/
def tornSlot (h : Header (ByteArr 48)) (i : SlotIndex) (s : KeySlot (ByteArr 48)) (k : Nat) :
    Bytes :=
  tear s.tokens.flatten (h.slot i).tokens.flatten (cutInSlot h i k)

/-- The cut meets the two encodings of the slot in step, and the slot it leaves
is disabled or has parameters within the limits. -/
structure TornInStep (h : Header (ByteArr 48)) (i : SlotIndex) (s : KeySlot (ByteArr 48))
    (k : Nat) : Prop where
  inStep : InStep s.tokens (h.slot i).tokens (cutInSlot h i k)
  accepted : ∀ t, Reads KeySlot.decode (tornSlot h i s k) t → 0 < t.generation →
    validateArgon2 t.params = .ok ()

/-- The file still begins with the old encoding, or already with the new one. -/
def WholeHeader (h h₁ : Header (ByteArr 48)) (k : Nat) : Prop :=
  h.encode <+: tear h₁.image h.image k ∨ h₁.encode <+: tear h₁.image h.image k

theorem take_tear {a b : Bytes} (c : Bytes) (hlen : a.length = b.length) (hk : k ≤ b.length) :
    (tear a (b ++ c) k).take b.length = tear a b k := by
  have hdrop : (b ++ c).drop k = b.drop k ++ c := List.drop_append_of_le_length hk
  have hwidth : (tear a b k).length = b.length := length_tear hlen
  rw [tear, hdrop, ← List.append_assoc, ← tear, ← hwidth, List.take_left]

/-- In step, the file holds the header with the torn slot in its place. -/
theorem prefix_tear_of_inStep
    (hstep : InStep s.tokens (h.slot i).tokens (cutInSlot h i k)) :
    (h.tokensBefore i).flatten ++ (tornSlot h i s k ++ (h.tokensAfter i).flatten) <+:
      tear (h.setSlot i s).image h.image k := by
  obtain ⟨hnew, hold⟩ := hstep.le
  have himage := Header.encode_eq (h.setSlot i s) i
  rw [Header.tokensBefore_setSlot, Header.tokensAfter_setSlot, Header.slot_setSlot] at himage
  have hsplit (a b c d : Bytes) (ha : cutInSlot h i k ≤ a.length)
      (hb : cutInSlot h i k ≤ b.length) :
      tear (a ++ c) (b ++ d) (cutInSlot h i k) = tear a b (cutInSlot h i k) ++ d := by
    rw [tear, tear, List.take_append_of_le_length ha, List.drop_append_of_le_length hb,
      List.append_assoc]
  rw [Header.image, Header.image, himage, Header.encode_eq h i]
  simp only [List.append_assoc]
  rw [tear_append rfl, ← cutInSlot, hsplit _ _ _ _ hnew hold, tear, List.take_append_drop,
    List.prefix_append_right_inj, tornSlot, List.prefix_append_right_inj]
  exact List.prefix_append _ _

/-! ## Unlocking what is left -/

/-- The slot is enabled and unwraps to the key under the password. -/
def SlotUnlocks (C : Crypto Key (ByteArr 48)) (h : Header (ByteArr 48)) (i : SlotIndex)
    (p : String) (dek : ByteArr 32) : Prop :=
  0 < (h.slot i).generation ∧ ∃ kek, deriveKek C p (h.slot i).salt (h.slot i).params = .ok kek ∧
    C.unwrap kek (h.slot i).nonce (slotAad C h (h.slot i)) (h.slot i).encryptedDek = some dek.val

/-- If the slot authenticates under the password at all, it holds the key. -/
def HoldsOnly (C : Crypto Key (ByteArr 48)) (h : Header (ByteArr 48)) (p : String)
    (dek : ByteArr 32) (s : KeySlot (ByteArr 48)) : Prop :=
  ∀ kek m, deriveKek C p s.salt s.params = .ok kek →
    C.unwrap kek s.nonce (slotAad C h s) s.encryptedDek = some m → m = dek.val

/-- What a cut leaves of the slot is not a forged record that the password opens. -/
def Unforged (C : Crypto Key (ByteArr 48)) (h : Header (ByteArr 48)) (i : SlotIndex)
    (s : KeySlot (ByteArr 48)) (k : Nat) (p : String) (dek : ByteArr 32) : Prop :=
  ∀ t, Reads KeySlot.decode (tornSlot h i s k) t → HoldsOnly C h p dek t

/-- Argon2 takes a password with one salt and valid parameters if it takes it
with another. -/
def Argon2Uniform (C : Crypto Key (ByteArr 48)) : Prop :=
  ∀ {p s q s' q'}, validateArgon2 q = .ok () → validateArgon2 q' = .ok () →
    (C.argon2id p s q).isSome → (C.argon2id p s' q').isSome

theorem HoldsOnly.setSlot {t : KeySlot (ByteArr 48)} (ht : HoldsOnly C h p dek t) :
    HoldsOnly C (h.setSlot i s) p dek t := by
  intro kek m hkek hm
  rw [slotAad_congr (immutableAad_setSlot C h i s)] at hm
  exact ht kek m hkek hm

theorem SlotUnlocks.holdsOnly (hs : SlotUnlocks C h i p dek) : HoldsOnly C h p dek (h.slot i) := by
  obtain ⟨-, kek, hkek, hwrap⟩ := hs
  intro kek' m hkek' hm
  obtain rfl := Except.ok.inj (hkek.symm.trans hkek')
  exact Option.some.inj (hm.symm.trans hwrap)

theorem SlotUnlocks.setSlot (hs : SlotUnlocks C h i.other p dek) :
    SlotUnlocks C (h.setSlot i s) i.other p dek := by
  simp only [SlotUnlocks, Header.slot_other_setSlot,
    slotAad_congr (immutableAad_setSlot C h i s)]
  exact hs

/-- The loop finds the key if one of the slots has it. -/
theorem unlockSlots_of_mem : ∀ {slots : List (KeySlot (ByteArr 48))},
    (∀ t ∈ slots, ∃ kek, deriveKek C p t.salt t.params = .ok kek) →
    (∀ t ∈ slots, HoldsOnly C g p dek t) →
    (∃ t ∈ slots, ∃ kek, deriveKek C p t.salt t.params = .ok kek ∧
      C.unwrap kek t.nonce (slotAad C g t) t.encryptedDek = some dek.val) →
    unlockSlots C g p slots = .ok (some dek)
  | [], _, _, ⟨_, ht, _⟩ => nomatch ht
  | t :: rest, htotal, hforge, ⟨u, hu, kek, hkek, hwrap⟩ => by
      obtain ⟨kek', hkek'⟩ := htotal t List.mem_cons_self
      rw [unlockSlots, hkek', ok_bind]
      cases hm : C.unwrap kek' t.nonce (slotAad C g t) t.encryptedDek with
      | some m =>
          obtain rfl := hforge t List.mem_cons_self kek' m hkek' hm
          rw [Option.bind_some, ByteArr.ofList?_eq_some.mpr rfl]
      | none =>
          refine unlockSlots_of_mem (fun v hv => htotal v (List.mem_cons_of_mem _ hv))
            (fun v hv => hforge v (List.mem_cons_of_mem _ hv)) ?_
          rcases List.mem_cons.mp hu with rfl | hu
          · rw [hkek'] at hkek
            cases hkek
            rw [hm] at hwrap
            cases hwrap
          · exact ⟨u, hu, kek, hkek, hwrap⟩

/-- A slot unlocks beside another one that does not stand in its way. -/
theorem unlock_of_slot (huniform : Argon2Uniform C) (hacc : HeaderAccepted g)
    (hs : SlotUnlocks C g i p dek) (hother : HoldsOnly C g p dek (g.slot i.other)) :
    unlock C g p = .ok (.unlocked dek) := by
  obtain ⟨hgen, kek, hkek, hwrap⟩ := id hs
  obtain ⟨hparams, hsome⟩ := deriveKek_eq_ok.mp hkek
  have htotal : ∀ t ∈ candidates g, ∃ kek, deriveKek C p t.salt t.params = .ok kek := by
    intro t ht
    obtain ⟨hmem, hpos⟩ := mem_candidates.mp ht
    have hvalid := hacc.slots t hmem hpos
    obtain ⟨kek', hkek'⟩ := Option.isSome_iff_exists.mp
      (huniform hparams hvalid (Option.isSome_of_eq_some hsome))
    exact ⟨kek', deriveKek_eq_ok.mpr ⟨hvalid, hkek'⟩⟩
  have hholds : ∀ t ∈ candidates g, HoldsOnly C g p dek t := by
    intro t ht
    obtain ⟨j, rfl⟩ := Header.mem_slots.mp (mem_candidates.mp ht).1
    rcases SlotIndex.eq_or_eq_other i j with rfl | rfl
    · exact hs.holdsOnly
    · exact hother
  have hmem : g.slot i ∈ candidates g :=
    mem_candidates.mpr ⟨Header.mem_slots.mpr ⟨i, rfl⟩, hgen⟩
  have hvalid : validateHeaderBasic g none = .ok () :=
    validateHeaderBasic_eq_ok.mpr ⟨hacc, nofun⟩
  rw [unlock, hvalid, ok_bind, unlockSlots_of_mem htotal hholds ⟨_, hmem, kek, hkek, hwrap⟩, ok_bind]

/-- What the newest slot holds is what the password unlocks. -/
theorem unlock_of_newest (hacc : HeaderAccepted g) (hs : SlotUnlocks C g i p dek)
    (hlt : (g.slot i.other).generation < (g.slot i).generation) :
    unlock C g p = .ok (.unlocked dek) := by
  obtain ⟨-, kek, hkek, hwrap⟩ := hs
  have hvalid : validateHeaderBasic g none = .ok () :=
    validateHeaderBasic_eq_ok.mpr ⟨hacc, nofun⟩
  rw [unlock, hvalid, ok_bind, candidates_newest hlt, unlockSlots, hkek, ok_bind, hwrap, Option.bind_some,
    ByteArr.ofList?_eq_some.mpr rfl]
  rfl

/-! ## Cuts that the container survives -/

/-- One of the two passwords unlocks the data key. -/
def EitherUnlocks (C : Crypto Key (ByteArr 48)) (old new : String) (dek : ByteArr 32)
    (g : Header (ByteArr 48)) : Prop :=
  unlock C g old = .ok (.unlocked dek) ∨ unlock C g new = .ok (.unlocked dek)

/-- The file is read, and one of the two passwords unlocks the data key. -/
def Recoverable (C : Crypto Key (ByteArr 48)) (old new : String) (dek : ByteArr 32)
    (file : Bytes) : Prop :=
  ∃ g, readHeader file = .ok g ∧ EitherUnlocks C old new dek g

/-- The slot that is not overwritten opens with one of the two passwords, past
whatever the cut has left of the other one. -/
def OtherOpens (C : Crypto Key (ByteArr 48)) (h : Header (ByteArr 48)) (i : SlotIndex)
    (s : KeySlot (ByteArr 48)) (k : Nat) (old new : String) (dek : ByteArr 32) : Prop :=
  ∃ p, (p = old ∨ p = new) ∧ SlotUnlocks C h i.other p dek ∧ Unforged C h i s k p dek

/-- Replacing a slot does not change the length that the header declares. -/
theorem validateHeaderBasic_setSlot (hvalid : validateHeaderBasic h (some len) = .ok ())
    (hacc : HeaderAccepted (h.setSlot i s)) :
    validateHeaderBasic (h.setSlot i s) (some len) = .ok () := by
  obtain ⟨-, hlen⟩ := validateHeaderBasic_eq_ok.mp hvalid
  refine validateHeaderBasic_eq_ok.mpr ⟨hacc, fun l hl => ?_⟩
  have hcheck := hlen l hl
  cases i <;> exact hcheck

/-- One torn write: the file holds the old header, the new one, or the header
with a torn slot in which the other slot still opens. -/
theorem recoverable_of_torn (huniform : Argon2Uniform C)
    (hvalid : validateHeaderBasic h (some len) = .ok ())
    (hacc : HeaderAccepted (h.setSlot i s))
    (hlen : UInt64.ofNat (h.image ++ body).length = len) (hk : k ≤ headerSize)
    (hold : EitherUnlocks C old new dek h) (hnew : EitherUnlocks C old new dek (h.setSlot i s))
    (hcut : WholeHeader h (h.setSlot i s) k ∨ TornInStep h i s k ∧ OtherOpens C h i s k old new dek) :
    Recoverable C old new dek (tear (h.setSlot i s).image (h.image ++ body) k) := by
  have hfile : (tear (h.setSlot i s).image (h.image ++ body) k).length =
      (h.image ++ body).length := by
    refine length_tear_of_le (by rwa [length_image]) ?_
    rw [List.length_append, length_image]
    exact Nat.le_trans hk (Nat.le_add_right _ _)
  have htake : (tear (h.setSlot i s).image (h.image ++ body) k).take headerSize =
      tear (h.setSlot i s).image h.image k := by
    have := take_tear body ((length_image (h.setSlot i s)).trans (length_image h).symm)
      (k := k) (by rwa [length_image])
    rwa [length_image] at this
  -- whatever encoding the file begins with is the header that is read
  have hread {g : Header (ByteArr 48)} {b : Bytes} (hb : Reads Header.decode b g)
      (hpre : b <+: tear (h.setSlot i s).image h.image k)
      (hg : validateHeaderBasic g (some len) = .ok ()) (hu : EitherUnlocks C old new dek g) :
      Recoverable C old new dek (tear (h.setSlot i s).image (h.image ++ body) k) := by
    refine ⟨g, readHeader_eq_ok ?_ (by rwa [htake]) hb (by rwa [hfile, hlen]), hu⟩
    rw [hfile, List.length_append, length_image]
    exact Nat.le_add_right _ _
  rcases hcut with (hpre | hpre) | ⟨htorn, p, hp, hopen, hforge⟩
  · exact hread (reads_header h) hpre hvalid hold
  · exact hread (reads_header _) hpre (validateHeaderBasic_setSlot hvalid hacc) hnew
  · obtain ⟨xs, hxs, hflat⟩ := htorn.inStep.exists_torn (readsTorn_keySlot _ _).length_eq
    obtain ⟨t, ht⟩ := (readsTorn_keySlot _ _).reads hxs
    rw [hflat] at ht
    have hacc' : HeaderAccepted (h.setSlot i t) :=
      (validateHeaderBasic_eq_ok.mp hvalid).1.setSlot (htorn.accepted t ht)
    have hunlock : unlock C (h.setSlot i t) p = .ok (.unlocked dek) := by
      refine unlock_of_slot huniform hacc' hopen.setSlot ?_
      rw [SlotIndex.other_other, Header.slot_setSlot]
      exact (hforge t ht).setSlot
    refine hread (reads_header_slot h i ht) (prefix_tear_of_inStep htorn.inStep)
      (validateHeaderBasic_setSlot hvalid hacc') ?_
    rcases hp with rfl | rfl
    · exact .inl hunlock
    · exact .inr hunlock

/-- The slot of the first write opens for the new password, and is the newest. -/
theorem slotUnlocks_firstWrite (hC : C.Correct)
    (hfirst : FirstWrite C len old new h h₁) (hunlock : unlock C h old = .ok (.unlocked dek)) :
    ∃ slot, h₁ = h.setSlot (inactiveSlot h) slot ∧ validateArgon2 slot.params = .ok () ∧
      SlotUnlocks C h₁ (inactiveSlot h) new dek ∧
      (h₁.slot (inactiveSlot h).other).generation < slot.generation := by
  obtain ⟨dek', generation, r, slot, hadmits, hgen, hslot, rfl⟩ := hfirst
  obtain rfl : dek' = dek := by
    have := hadmits.unlocked.symm.trans hunlock
    cases this
    rfl
  obtain ⟨rfl, -, -, -, kek, hkek, hwrap⟩ := makeKeySlot_eq_ok.mp hslot
  refine ⟨slot, rfl, (deriveKek_eq_ok.mp hkek).1, ?_, ?_⟩
  · rw [SlotUnlocks, Header.slot_setSlot, slotAad_congr (immutableAad_setSlot C h _ _)]
    have hone : (1 : UInt64).toNat = 1 := rfl
    rw [checkedAdd_eq_some_iff] at hgen
    refine ⟨?_, kek, hkek, hC.unwrap_wrap hwrap⟩
    rw [UInt64.lt_iff_toNat_lt]
    exact Nat.lt_of_lt_of_eq (Nat.succ_pos _) (by rw [hgen, hone])
  · rw [Header.slot_other_setSlot]
    exact checkedAdd_max_spec hgen _

/-- **A torn header write keeps the container where the old and the new keyslot
are in step at the cut**, and the slot that is not overwritten opens with the old
or the new password. After the first write it does with the new one. -/
theorem torn_header_write_recoverable (hC : C.Correct) (huniform : Argon2Uniform C)
    (hfirst : FirstWrite C len old new h h₁) (hunlock : unlock C h old = .ok (.unlocked dek))
    (hlen : UInt64.ofNat (h.image ++ body).length = len) :
    (∀ k ≤ headerSize,
      WholeHeader h h₁ k ∨ TornInStep h (inactiveSlot h) (h₁.slot (inactiveSlot h)) k ∧
        OtherOpens C h (inactiveSlot h) (h₁.slot (inactiveSlot h)) k old new dek →
      Recoverable C old new dek (tear h₁.image (h.image ++ body) k)) ∧
    ∀ h₂, SecondWrite h h₁ h₂ → ∀ k ≤ headerSize,
      WholeHeader h₁ h₂ k ∨
        TornInStep h₁ (inactiveSlot h).other (h₂.slot (inactiveSlot h).other) k ∧
          Unforged C h₁ (inactiveSlot h).other (h₂.slot (inactiveSlot h).other) k new dek →
      Recoverable C old new dek (tear h₂.image (h₁.image ++ body) k) := by
  obtain ⟨dek', -, -, -, hadmits, -⟩ := id hfirst
  obtain ⟨slot, rfl, hparams, hopen, hnewest⟩ := slotUnlocks_firstWrite hC hfirst hunlock
  have hvalid := hadmits.valid
  have hacc₁ : HeaderAccepted (h.setSlot (inactiveSlot h) slot) :=
    (validateHeaderBasic_eq_ok.mp hvalid).1.setSlot fun _ => hparams
  have hnew := unlock_of_newest hacc₁ hopen (by rwa [Header.slot_setSlot])
  constructor
  · intro k hk hcut
    rw [Header.slot_setSlot] at hcut
    exact recoverable_of_torn huniform hvalid hacc₁ hlen hk (.inl hunlock) (.inr hnew) hcut
  · rintro h₂ ⟨r, rfl⟩ k hk hcut
    rw [Header.slot_setSlot] at hcut
    have hoff : (KeySlot.randomDisabled r).generation = 0 := rfl
    have hacc₂ : HeaderAccepted ((h.setSlot (inactiveSlot h) slot).setSlot (inactiveSlot h).other
        (KeySlot.randomDisabled r)) := hacc₁.setSlot fun hon => absurd hon (by rw [hoff]; decide)
    have hkept : SlotUnlocks C (h.setSlot (inactiveSlot h) slot) (inactiveSlot h).other.other
        new dek := by
      rwa [SlotIndex.other_other]
    have hopen₂ := hkept.setSlot (s := KeySlot.randomDisabled r)
    have hnew₂ := unlock_of_newest hacc₂ hopen₂ (by
      rw [SlotIndex.other_other, Header.slot_setSlot, hoff]
      exact hopen₂.1)
    have hlen₁ : UInt64.ofNat ((h.setSlot (inactiveSlot h) slot).image ++ body).length = len := by
      rw [← hlen, List.length_append, List.length_append, length_image, length_image]
    exact recoverable_of_torn huniform (validateHeaderBasic_setSlot hvalid hacc₁) hacc₂ hlen₁ hk
      (.inr hnew) (.inr hnew₂)
      (hcut.imp id fun ⟨hstep, hforge⟩ => ⟨hstep, new, .inr rfl, hkept, hforge⟩)

/-! ## A cut that is survived, and one that is not -/

/-- Primitives that put the key derived from the password behind what they wrap. -/
def vaultCrypto : Crypto (ByteArr 16) (ByteArr 48) where
  argon2id p _ _ := ByteArr.ofList? 16 ((ascii p ++ List.replicate 16 0).take 16)
  wrap k _ _ m := ByteArr.ofList? 48 (m ++ k.val)
  unwrap k _ _ w := if w.val.drop 32 = k.val then some (w.val.take 32) else none
  hkdf _ _ _ := none
  encrypt _ _ _ _ := none
  decrypt _ _ _ _ := none
  markerDigest _ := ByteArr.zero 32
  blake3 _ := ByteArr.zero 32

theorem vaultCrypto_unwrap_wrap {k : ByteArr 16} {n : ByteArr 12} {a m : Bytes} {w : ByteArr 48}
    (hw : vaultCrypto.wrap k n a m = some w) : vaultCrypto.unwrap k n a w = some m := by
  have hval : m ++ k.val = w.val := ByteArr.ofList?_eq_some.mp hw
  have hlen : m.length = 32 := by
    have htotal := congrArg List.length hval
    rw [List.length_append, k.length_val, w.length_val] at htotal
    omega
  simp only [vaultCrypto, ← hval, ← hlen, List.drop_left, List.take_left, if_true]

theorem vaultCrypto_correct : vaultCrypto.Correct where
  unwrap_wrap := vaultCrypto_unwrap_wrap
  decrypt_encrypt := nofun
  length_encrypt := nofun

def zeroSlotRandom : SlotRandom (ByteArr 48) :=
  ⟨ByteArr.zero 16, ByteArr.zero 12, ByteArr.zero 48⟩

/-- A salt of bytes that take two bytes each when they are encoded. -/
def wideSlotRandom : SlotRandom (ByteArr 48) :=
  { zeroSlotRandom with salt := ⟨List.replicate 16 255, rfl⟩ }

def zeroHeaderRandom : Pack.HeaderRandom (ByteArr 48) :=
  ⟨ByteArr.zero 16, ByteArr.zero 12, ByteArr.zero 32, zeroSlotRandom, zeroSlotRandom,
    zeroSlotRandom, zeroSlotRandom, zeroSlotRandom⟩

/-- A container without files, as packing leaves it. -/
def emptyContainer : Header (ByteArr 48) :=
  (Pack.packHeader vaultCrypto "old" none .default 16 0 1
    zeroHeaderRandom).toOption.getD (Pack.blankHeader 16 0 1 zeroHeaderRandom)

/-- The slot that a password change makes for it. -/
def newSlot (r : SlotRandom (ByteArr 48)) : KeySlot (ByteArr 48) :=
  { KeySlot.randomDisabled r with
    generation := 2
    encryptedDek := ⟨List.replicate 32 0 ++ ascii "new" ++ List.replicate 13 0, rfl⟩ }

theorem firstWrite_newSlot (r : SlotRandom (ByteArr 48)) :
    FirstWrite vaultCrypto 4112 "old" "new" emptyContainer
      (emptyContainer.setSlot .second (newSlot r)) := by
  refine ⟨ByteArr.zero 32, 2, r, newSlot r, ⟨by decide +kernel, ⟨.failed, by decide +kernel, by decide⟩,
    by decide +kernel⟩, by decide +kernel, ?_, rfl⟩
  rfl

theorem torn_header_write_recoverable_sample :
    Recoverable vaultCrypto "old" "new" (ByteArr.zero 32)
      (tear (emptyContainer.setSlot .second (newSlot zeroSlotRandom)).image
        (emptyContainer.image ++ List.replicate 16 0) 160) := by
  have hinactive : inactiveSlot emptyContainer = .second := by decide +kernel
  -- the torn slot is of the new generation, with the old random bytes behind it
  have hread : (KeySlot.decode (tornSlot emptyContainer .second (newSlot zeroSlotRandom) 160)).all
      fun r => decide (validateArgon2 r.1.params = .ok ()) &&
        (r.1.encryptedDek.val.drop 32 == List.replicate 16 0) := by decide +kernel
  have htorn : ∀ t, Reads KeySlot.decode
      (tornSlot emptyContainer .second (newSlot zeroSlotRandom) 160) t →
      validateArgon2 t.params = .ok () ∧ t.encryptedDek.val.drop 32 = List.replicate 16 0 := by
    intro t ht
    have hdecode := ht []
    rw [List.append_nil] at hdecode
    rw [hdecode, Option.all_some, Bool.and_eq_true] at hread
    exact ⟨of_decide_eq_true hread.1, eq_of_beq hread.2⟩
  refine (torn_header_write_recoverable vaultCrypto_correct (fun _ _ hs => hs)
    (firstWrite_newSlot zeroSlotRandom) (by decide +kernel) (by decide +kernel)).1 160
      (by decide) (.inr ?_)
  rw [hinactive, Header.slot_setSlot]
  refine ⟨⟨by decide +kernel, fun t ht _ => (htorn t ht).1⟩, "old", .inl rfl,
    ⟨by decide +kernel, ⟨ascii "old" ++ List.replicate 13 0, rfl⟩, by decide +kernel,
      by decide +kernel⟩, ?_⟩
  intro t ht kek m hkek hm
  obtain ⟨-, hargon⟩ := deriveKek_eq_ok.mp hkek
  simp only [vaultCrypto, ByteArr.ofList?_eq_some, Option.ite_none_right_eq_some] at hargon hm
  rw [(htorn t ht).2, ← hargon] at hm
  exact absurd hm.1 (by decide +kernel)

/-- **A cut inside the new salt leaves a file that is no container.** -/
theorem torn_salt_loses_container :
    Pack.packHeader vaultCrypto "old" none .default 16 0 1
      zeroHeaderRandom = .ok emptyContainer ∧
    FirstWrite vaultCrypto 4112 "old" "new" emptyContainer
      (emptyContainer.setSlot .second (newSlot wideSlotRandom)) ∧
    ¬Recoverable vaultCrypto "old" "new" (ByteArr.zero 32)
      (tear (emptyContainer.setSlot .second (newSlot wideSlotRandom)).image
        (emptyContainer.image ++ List.replicate 16 0) 152) := by
  refine ⟨by decide +kernel, firstWrite_newSlot wideSlotRandom, ?_⟩
  rintro ⟨g, hg, -⟩
  have hlost : (readHeader (tear (emptyContainer.setSlot .second (newSlot wideSlotRandom)).image
      (emptyContainer.image ++ List.replicate 16 0) 152)).toOption.isNone := by decide +kernel
  rw [hg] at hlost
  cases hlost

end CipherFS.V2
