import CipherFS.Core.V2.Validate

/-!
# The headers `validate_header_basic` accepts
-/

namespace CipherFS.V2

open Result

variable {W : Type}

/-- The checks of `validate_header_basic` that do not look at the file length. -/
structure HeaderAccepted (h : Header W) : Prop where
  magic : h.magic = magicBytes
  version : h.version = V2.version
  headerSize : h.headerSize.toNat = V2.headerSize
  chunkSize : h.chunkSize.toNat = V2.chunkSize.toNat
  tagSize_le : tagSize.toNat ≤ h.indexSize.toNat
  indexSize_le : h.indexSize.toNat ≤ maxIndexSize.toNat
  entryCount_le : h.entryCount.toNat ≤ maxEntries
  slots : ∀ s ∈ h.slots, 0 < s.generation → validateArgon2 s.params = .ok ()
  duress : h.duress.enabled → validateArgon2 h.duress.params = .ok ()

theorem checkContainerLength_eq_ok {h : Header W} {fileLen : UInt64} {u : Unit} :
    checkContainerLength h fileLen = .ok u ↔
      headerSize + h.indexSize.toNat + h.dataSize.toNat = fileLen.toNat := by
  have hconst : (UInt64.ofNat headerSize).toNat = headerSize := rfl
  simp only [checkContainerLength, bind_eq_ok, ofOption_eq_ok, Option.bind_eq_some_iff,
    checkedAdd_eq_some_iff, rejectIf_eq_ok, ne_eq, not_not, hconst]
  constructor
  · rintro ⟨_, ⟨b, hb, hlen⟩, rfl⟩
    omega
  · intro hlen
    have hlt := fileLen.toNat_lt
    obtain ⟨b, hb⟩ := exists_toNat_eq (n := headerSize + h.indexSize.toNat) (by omega)
    exact ⟨fileLen, ⟨b, hb, by omega⟩, rfl⟩

theorem validateHeaderBasic_eq_ok {h : Header W} {fileLen : Option UInt64} {u : Unit} :
    validateHeaderBasic h fileLen = .ok u ↔
      HeaderAccepted h ∧ ∀ len ∈ fileLen, checkContainerLength h len = .ok () := by
  have hslots : (h.slots.forM fun s => if s.generation > 0 then validateArgon2 s.params
      else .ok ()) = .ok () ↔
      ∀ s ∈ h.slots, 0 < s.generation → validateArgon2 s.params = .ok () := by
    rw [forM_eq_ok]
    refine forall₂_congr fun s _ => ?_
    split <;> simp_all
  have hduress : (if h.duress.enabled then validateArgon2 h.duress.params else .ok ()) = .ok () ↔
      (h.duress.enabled → validateArgon2 h.duress.params = .ok ()) := by
    split <;> simp_all
  simp only [validateHeaderBasic, bind_eq_ok, rejectIf_eq_ok, not_or, ne_eq, not_not,
    UInt64.lt_iff_toNat_lt, gt_iff_lt, Nat.not_lt]
  constructor
  · rintro ⟨_, ⟨hm, hv, hh, hc⟩, _, ⟨hlo, hhi⟩, _, hn, _, hs, _, hd, hl⟩
    refine ⟨⟨hm, hv, hh, hc, hlo, hhi, hn, hslots.mp hs, hduress.mp hd⟩, ?_⟩
    rintro len rfl
    exact hl
  · rintro ⟨hacc, hl⟩
    refine ⟨(), ⟨hacc.magic, hacc.version, hacc.headerSize, hacc.chunkSize⟩, (),
      ⟨hacc.tagSize_le, hacc.indexSize_le⟩, (), hacc.entryCount_le, (), hslots.mpr hacc.slots,
      (), hduress.mpr hacc.duress, ?_⟩
    cases fileLen with
    | none => rfl
    | some len => exact hl len rfl

end CipherFS.V2
