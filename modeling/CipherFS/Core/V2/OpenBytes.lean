import CipherFS.Core.Progress.Reopen

/-!
# Opening a content that stays the same

What `open` comes to is a function of the bytes of the container and the
password, as long as the file has only ever had one content. The run reads the
length, the header and the index at different moments; each of them is then read
from that content.
-/

namespace CipherFS

open WorldProg Prog V2 Result
open Extract (Holds)

variable {α Key : Type} {w w' : World} {P : World → Prop} {Had : World → Bytes → Prop} {ino : Ino}
  {path : Path} {b : Bytes}

namespace V2

def unlockedDek : UnlockResult → Result (ByteArr 32)
  | .unlocked dek => .ok dek
  | .duress => bail "Unable to unlock container (wrong password or damage)"
  | .failed => bail "Unable to unlock container (wrong password or damage)"

/-- `open` as a function of the bytes of the file. -/
def openBytes (R : Reader Key) (content : Bytes) (password : String) :
    Result (OpenedContainer (ByteArr 48)) := do
  let bytes ← readExactAt content 0 (UInt64.ofNat headerSize)
  let header ← ofOption (Header.decode bytes) "invalid encoding"
  validateHeaderBasic header.1 (some (UInt64.ofNat content.length))
  let found ← unlock R.crypto header.1 password
  let dek ← unlockedDek found
  let encrypted ← readExactAt content (UInt64.ofNat headerSize) header.1.indexSize
  let key ← deriveIndexKey R.crypto dek header.1.containerId
  let serialized ← decryptAead R.crypto key header.1.indexNonce (indexAad R.crypto header.1)
    encrypted
  let index ← ofOption (R.codec.decode serialized) "invalid encoding"
  let index ← validateIndex R.order R.os header.1 index
  let dataStart ← dataStartOf header.1
  .ok ⟨content, header.1, index, dek, dataStart⟩

/-- What a run has found, over a content of the file. -/
def OpenedFile.withContent (opened : OpenedFile) (content : Bytes) : OpenedContainer (ByteArr 48) :=
  ⟨content, opened.header, opened.index, opened.dek, opened.dataStart⟩

/-- What is open has a validated index. -/
theorem openBytes_index {R : Reader Key} {password : String} {o : OpenedContainer (ByteArr 48)}
    (h : openBytes R b password = .ok o) : ∃ serialized index,
      R.codec.decode serialized = some index ∧
        validateIndex R.order R.os o.header index = .ok o.index := by
  simp only [openBytes, bind_eq_ok] at h
  obtain ⟨bytes, -, header, -, -, -, found, -, dek, -, encrypted, -, key, -, serialized, -, index,
    hindex, ix, hvalid, start, -, ho⟩ := h
  obtain rfl := Except.ok.inj ho
  exact ⟨serialized, index, ofOption_eq_ok.mp hindex, hvalid⟩

/-- The order of the hash maps does not matter. -/
theorem openBytes_order {R : Reader Key} {password : String} {o : OpenedContainer (ByteArr 48)}
    (ω : IterOrder) : openBytes { R with order := ω } b password = .ok o ↔
      openBytes R b password = .ok o := by
  simp only [openBytes, bind_eq_ok, validateIndex_eq_ok]

end V2

/-! ## Only one content -/

/-- A file that a run opens and reads, with the contents that it has had. -/
structure ReadsFrom (path : Path) (ino : Ino) (Had : World → Bytes → Prop) (P : World → Prop) :
    Prop where
  stable : World.sharing.Stable P
  found : ∀ w, P w → w.fs.follow 41 path = some (.file ino)
  current : ∀ w, P w → Had w (w.fs.inodes ino).content
  grow : ∀ w w' b, P w → World.sharing.rel w w' → Had w b → Had w' b
  logged : ∀ w fs, P w → P { w with failures := fs } ∧
    ∀ b, Had w b → Had { w with failures := fs } b

/-- What is known of the content if the file has only ever had one. -/
def Knows (Had : World → Bytes → Prop) (φ : Bytes → Prop) (w : World) : Prop :=
  ∀ b, (∀ c, Had w c → c = b) → φ b

namespace ReadsFrom

variable (h : ReadsFrom path ino Had P) {φ ψ : Bytes → Prop} {pos len : UInt64}
include h

theorem stable_knows : World.sharing.Stable fun w => P w ∧ Knows Had φ w := by
  intro w w' hw hrel
  refine ⟨h.stable w w' hw.1 hrel, ?_⟩
  intro b hb
  exact hw.2 b fun c hc => hb c (h.grow w w' c hw.1 hrel hc)

/-- A read adds what it has found. -/
theorem holds_read {f : World → Result α} {g : Bytes → Result α}
    (hf : ∀ w, P w → f w = g (w.fs.inodes ino).content) :
    Holds (fun _ => True) (fun w => P w ∧ Knows Had φ w) (perform (Op.reading f))
      (fun a w => P w ∧ Knows Had (fun b => φ b ∧ g b = .ok a) w) fun _ _ => True := by
  refine holds_perform h.stable_knows (fun _ _ _ _ _ _ => trivial) ?_
  intro i w a w' hw hop
  obtain ⟨hread, rfl⟩ := reading_ok hop
  refine ⟨hw.1, ?_⟩
  intro b hb
  refine ⟨hw.2 b hb, ?_⟩
  rw [← hb _ (h.current w' hw.1), ← hf w' hw.1]
  exact hread

theorem holds_found : Holds (fun _ => True) (fun w => P w ∧ Knows Had φ w)
    (perform (Op.openFile path)) (fun file w => file = .file ino ∧ P w ∧ Knows Had φ w)
    fun _ _ => True := by
  refine holds_reads h.stable_knows ?_
  intro w node hw hnode
  rw [h.found w hw.1] at hnode
  exact (Except.ok.inj hnode).symm

theorem holds_value {r : Result α} : Holds (fun _ => True) (fun w => P w ∧ Knows Had φ w)
    (require r) (fun a w => r = .ok a ∧ P w ∧ Knows Had φ w) fun _ _ => True :=
  holds_requires h.stable_knows r

/-- Only a keyslot gives the key; the duress password wipes, and then fails. -/
theorem holds_storedDek {header : Header (ByteArr 48)} {found : UnlockResult} :
    Holds (fun _ => True) (fun w => P w ∧ Knows Had φ w) (storedDek path header found)
      (fun dek w => unlockedDek found = .ok dek ∧ P w ∧ Knows Had φ w) fun _ _ => True := by
  have hnothing : World.sharing.Stable fun _ => True := fun _ _ _ _ => trivial
  cases found with
  | unlocked dek => exact .pure fun w hw => ⟨rfl, hw⟩
  | failed =>
      show Holds _ _ (require (bail _)) _ _
      refine h.holds_value.conseq (fun _ hw => hw) ?_ fun _ _ he => he
      rintro dek w ⟨hbail, -⟩
      exact absurd hbail bail_ne_ok
  | duress =>
      refine .bind (Q := fun _ _ => True) ?_ fun _ => ?_
      · have hwipe : Built (keeping fun _ _ => True → True) (wipeStored path header) := by
          have hcall : ∀ {β : Type} {f : WorldInput → World → Result β × World},
              Built (keeping fun _ _ => True → True) (Prog.call f) :=
            kept_call fun _ _ _ => trivial
          unfold wipeStored
          refine .bind hcall fun _ => .bind hcall fun _ => .bind hcall fun _ => ?_
          refine .bind (kept_require (fun _ _ _ => trivial) _).built fun _ => ?_
          exact .bind hcall fun _ => hcall
        exact (holds_keeping hwipe hnothing).conseq (fun _ _ => trivial) (fun _ _ _ => trivial)
          fun _ _ he => he
      · refine (holds_requires hnothing _).conseq (fun _ hw => hw) ?_ fun _ _ he => he
        rintro dek w ⟨hbail, -⟩
        exact absurd hbail bail_ne_ok

/-- **Opening a file with one content is opening that content.** -/
theorem holds_openStored (R : Reader Key) (password : String) :
    Holds (fun _ => True) P (openStored R path password)
      (fun opened w => opened.file = .file ino ∧ P w ∧
        Knows Had (fun b => openBytes R b password = .ok (opened.withContent b)) w) fun _ _ => True := by
  refine .pre (P := fun w => P w ∧ Knows Had (fun _ => True) w) ?_ fun w hw =>
    ⟨hw, fun _ _ => trivial⟩
  unfold openStored
  refine .bind h.holds_found fun file => .assume fun hfile => ?_
  subst hfile
  unfold readHeaderFrom
  refine .bind (Q := fun header w => P w ∧ Knows Had (fun b => ∃ bytes rest,
      readExactAt b 0 (UInt64.ofNat headerSize) = .ok bytes ∧
      Header.decode bytes = some (header, rest) ∧
      validateHeaderBasic header (some (UInt64.ofNat b.length)) = .ok ()) w) ?_ fun header => ?_
  · refine .bind (.mapError (h.holds_read (g := fun b => readExactAt b 0 (UInt64.ofNat headerSize))
      fun _ _ => rfl)) fun bytes => ?_
    refine .bind (.mapError h.holds_value) fun header => .assume fun hheader => ?_
    refine .bind (h.holds_read (g := fun b => .ok (UInt64.ofNat b.length)) fun _ _ => rfl)
      fun len => ?_
    refine .bind h.holds_value fun _ => .assume fun hvalid => .pure ?_
    rintro w ⟨hw, hknows⟩
    refine ⟨hw, ?_⟩
    intro b hb
    obtain ⟨⟨-, hbytes⟩, hlen⟩ := hknows b hb
    obtain rfl := Except.ok.inj hlen
    exact ⟨bytes, header.2, hbytes, ofOption_eq_ok.mp hheader, hvalid⟩
  refine .bind h.holds_value fun found => .assume fun hfound => ?_
  refine .bind h.holds_storedDek fun dek => .assume fun hdek => ?_
  unfold openIndex
  refine .bind (h.holds_read
    (g := fun b => readExactAt b (UInt64.ofNat headerSize) header.indexSize) fun _ _ => rfl)
    fun encrypted => ?_
  refine .bind h.holds_value fun key => .assume fun hkey => ?_
  refine .bind (.mapError h.holds_value) fun serialized => .assume fun hserialized => ?_
  refine .bind (.mapError h.holds_value) fun index => .assume fun hindex => ?_
  refine .bind h.holds_value fun v => .assume fun hv => ?_
  refine .bind h.holds_value fun dataStart => .assume fun hstart => .pure ?_
  rintro w ⟨hw, hknows⟩
  refine ⟨rfl, hw, ?_⟩
  intro b hb
  obtain ⟨⟨bytes, rest, hbytes, hdecode, hvalid⟩, hencrypted⟩ := hknows b hb
  have hheader : ofOption (Header.decode bytes) "invalid encoding" = .ok (header, rest) :=
    ofOption_eq_ok.mpr hdecode
  simp only [openBytes, hbytes, hheader, hvalid, hfound, hdek, hencrypted, hkey, hserialized, hindex,
    hv, hstart, ok_bind]
  rfl

end ReadsFrom

end CipherFS
