import CipherFS.Core.V2.ChunkLayout
import CipherFS.Framework.StableSort

/-!
# The order of the entries of an index

All checks of `validate_index` but one are about the set of entries. The layout
loop goes through the files sorted by offset alone, so files with one offset,
of which all but the last have to be empty, are met in the order of the list.
-/

namespace CipherFS.V2

open Result Tiling StableSort

variable {W : Type} {os : Platform} {header : Header W} {es es' : List Entry}

/-! ## The set of entries -/

/-- The checks of `validate_index`, but for the order of the entries: the files
can be laid end to end in some order. -/
structure AcceptedSet (os : Platform) (header : Header W) (es : List Entry) : Prop where
  count : es.length = header.entryCount.toNat
  count_le : es.length ≤ maxEntries
  entries : ∀ e ∈ es, EntryAccepted os e
  ids : (es.map Entry.id).Nodup
  fileIds : (fileIdsOf es).Nodup
  root : ∃ e ∈ es, e.id = 1
  parents : ∀ e ∈ es, e.id ≠ 1 → HasParent es e
  siblings : (placesOf es).Nodup
  layout : ∃ files : List (UInt64 × UInt64 × UInt64), files.Perm (fileExtents es) ∧
    Contiguous 0 (files.map toExtent) header.dataSize.toNat

/-- A file that stands before another one with the same offset is empty. -/
def EmptiesFirst (es : List Entry) : Prop :=
  es.Pairwise fun a b => a.isFile = true → b.isFile = true → a.dataOffset = b.dataOffset →
    a.encryptedSize = 0

instance (es : List Entry) : Decidable (EmptiesFirst es) :=
  inferInstanceAs (Decidable (es.Pairwise _))

theorem AcceptedSet.perm (h : AcceptedSet os header es) (hperm : es.Perm es') :
    AcceptedSet os header es' where
  count := hperm.length_eq.symm.trans h.count
  count_le := hperm.length_eq ▸ h.count_le
  entries e he := h.entries e (hperm.mem_iff.mpr he)
  ids := (hperm.map _).nodup_iff.mp h.ids
  fileIds := ((hperm.filter _).map _).nodup_iff.mp h.fileIds
  root := by
    obtain ⟨e, he, hid⟩ := h.root
    exact ⟨e, hperm.mem_iff.mp he, hid⟩
  parents := by
    intro e he hid
    obtain ⟨p, hp, hparent⟩ := h.parents e (hperm.mem_iff.mpr he) hid
    exact ⟨p, hperm.mem_iff.mp hp, hparent⟩
  siblings := ((hperm.filter _).map _).nodup_iff.mp h.siblings
  layout := by
    obtain ⟨files, hfiles, hlayout⟩ := h.layout
    exact ⟨files, hfiles.trans ((hperm.filter _).map _), hlayout⟩

/-! ## The sorted files -/

theorem sortByOffset_perm (files : List (UInt64 × UInt64 × UInt64)) :
    (sortByOffset files).Perm files := List.mergeSort_perm _ _

theorem tie_offset {a b : UInt64 × UInt64 × UInt64} :
    Tie (fun a b : UInt64 × UInt64 × UInt64 => decide (a.1 ≤ b.1)) a b ↔ a.1 = b.1 := by
  rw [Tie, decide_eq_true_eq, decide_eq_true_eq]
  constructor
  · exact fun h => UInt64.le_antisymm h.1 h.2
  · intro h
    rw [h]
    exact ⟨UInt64.le_refl _, UInt64.le_refl _⟩

/-- Of the files with one offset, the sorted list has the empty ones first just
when the entries do. -/
theorem emptiesFirst_iff : EmptiesFirst es ↔
    (sortByOffset (fileExtents es)).Pairwise fun a b => a.1 = b.1 → a.2.1 = 0 := by
  have hsort := pairwise_tie_mergeSort (R := fun a b : UInt64 × UInt64 × UInt64 => a.2.1 = 0)
    (l := fileExtents es) (key_trans Prod.fst) (key_total Prod.fst)
  simp only [tie_offset] at hsort
  rw [sortByOffset, hsort, fileExtents, List.pairwise_map, List.pairwise_filter]
  exact Iff.rfl

/-- The order of the extents in a contiguous layout. -/
def Before (x y : Extent) : Prop := x.1 < y.1 ∨ x.1 = y.1 ∧ x.2 ≤ y.2

theorem pairwise_before_of_contiguous {xs : List Extent} {a b : ℕ} (h : Contiguous a xs b) :
    xs.Pairwise Before := by
  refine h.pairwise_before.imp fun {x y} hxy => ?_
  unfold Before
  omega

theorem pairwise_before_sortByOffset (h : EmptiesFirst es) :
    ((sortByOffset (fileExtents es)).map toExtent).Pairwise Before := by
  rw [List.pairwise_map]
  have hsorted := List.pairwise_mergeSort (key_trans Prod.fst) (key_total Prod.fst) (fileExtents es)
  refine (hsorted.and (emptiesFirst_iff.mp h)).imp fun {x y} hxy => ?_
  have hle : x.1.toNat ≤ y.1.toNat := of_decide_eq_true hxy.1
  rcases Nat.lt_or_eq_of_le hle with hlt | heq
  · exact .inl hlt
  · refine .inr ⟨heq, ?_⟩
    rw [toExtent, hxy.2 (UInt64.toNat_inj.mp heq)]
    exact Nat.zero_le _

/-- **What the validator accepts, as a set and an order.** -/
theorem acceptedIndex_iff : AcceptedIndex os header es ↔
    AcceptedSet os header es ∧ EmptiesFirst es := by
  constructor
  · intro h
    refine ⟨⟨h.count, h.count_le, h.entries, h.ids, h.fileIds, h.root, h.parents, h.siblings,
      _, sortByOffset_perm _, h.layout⟩, ?_⟩
    rw [emptiesFirst_iff]
    refine (List.pairwise_map.mp h.layout.pairwise_before).imp fun {x y} hxy heq => ?_
    have hend : x.1.toNat + x.2.1.toNat ≤ y.1.toNat := hxy
    rw [heq] at hend
    refine UInt64.toNat_inj.mp ?_
    rw [UInt64.toNat_zero]
    omega
  · rintro ⟨h, hempty⟩
    obtain ⟨files, hfiles, hlayout⟩ := h.layout
    refine ⟨h.count, h.count_le, h.entries, h.ids, h.fileIds, h.root, h.parents, h.siblings, ?_⟩
    have hperm : ((sortByOffset (fileExtents es)).map toExtent).Perm (files.map toExtent) :=
      ((sortByOffset_perm _).trans hfiles.symm).map _
    suffices heq : (sortByOffset (fileExtents es)).map toExtent = files.map toExtent by rwa [heq]
    refine hperm.eq_of_pairwise ?_ (pairwise_before_sortByOffset hempty)
      (pairwise_before_of_contiguous hlayout)
    rintro ⟨a, n⟩ ⟨b, m⟩ - - hab hba
    unfold Before at hab hba
    rw [Prod.mk.injEq]
    dsimp only at hab hba
    omega

/-! ## The verdict -/

/-- `validate_index` accepts the entries. -/
def Accepts (ω : IterOrder) (os : Platform) (header : Header W) (es : List Entry) : Prop :=
  ∃ v, validateIndex ω os header ⟨es⟩ = .ok v

theorem accepts_iff {ω : IterOrder} : Accepts ω os header es ↔
    AcceptedSet os header es ∧ EmptiesFirst es := by
  simp only [Accepts, validateIndex_eq_ok, exists_and_left, exists_eq, and_true]
  exact acceptedIndex_iff

/-- **Two orders of the same entries get the same verdict exactly when they agree
on whether the empty files come first**, unless no order is accepted. -/
theorem verdict_perm_iff (ω ω' : IterOrder) (os : Platform) (header : Header W)
    (h : es.Perm es') :
    (Accepts ω os header es ↔ Accepts ω' os header es') ↔
      (AcceptedSet os header es → (EmptiesFirst es ↔ EmptiesFirst es')) := by
  have hset : AcceptedSet os header es ↔ AcceptedSet os header es' :=
    ⟨fun hs => hs.perm h, fun hs => hs.perm h.symm⟩
  rw [accepts_iff, accepts_iff, ← hset, and_congr_right_iff]

/-- An empty file beside the file of the sample index. -/
def emptyFile : Entry := ⟨2, 1, "empty", 1, .file, ⟨List.replicate 16 2, rfl⟩, 0, 0, 0, 0⟩

/-- A file with content. -/
def fullFile : Entry := ⟨3, 1, "full", 1, .file, sampleFile.fileId, 5, 0, 21, 1⟩

theorem acceptedSet_twoFiles (w : W) :
    AcceptedSet .unix (sampleHeader w) [sampleRoot, emptyFile, fullFile] where
  count := rfl
  count_le := by decide
  entries := by
    have hname : validateName .unix "empty" = .ok () ∧ validateName .unix "full" = .ok () := by
      decide
    intro e he
    simp only [List.mem_cons, List.not_mem_nil, or_false] at he
    rcases he with rfl | rfl | rfl
    · exact ⟨by decide, by decide, by decide, by decide, by decide⟩
    · exact ⟨by decide, by decide, hname.1, by decide, by decide⟩
    · exact ⟨by decide, by decide, hname.2, by decide, by decide⟩
  ids := by decide
  fileIds := by decide
  root := ⟨sampleRoot, by simp, rfl⟩
  parents := by
    intro e he hid
    simp only [List.mem_cons, List.not_mem_nil, or_false] at he
    rcases he with rfl | rfl | rfl
    · exact absurd rfl hid
    · exact ⟨sampleRoot, by simp, rfl, rfl, rfl⟩
    · exact ⟨sampleRoot, by simp, rfl, rfl, rfl⟩
  siblings := by decide
  layout := ⟨fileExtents [sampleRoot, emptyFile, fullFile], .refl _, rfl, rfl, rfl⟩

/-- The same entries are accepted in one order and refused in another. -/
theorem order_matters :
    [sampleRoot, emptyFile, fullFile].Perm [sampleRoot, fullFile, emptyFile] ∧
    Accepts .stored .unix (sampleHeader ()) [sampleRoot, emptyFile, fullFile] ∧
    ¬Accepts .stored .unix (sampleHeader ()) [sampleRoot, fullFile, emptyFile] := by
  refine ⟨by decide, accepts_iff.mpr ⟨acceptedSet_twoFiles (), by decide⟩, fun h => ?_⟩
  exact absurd (accepts_iff.mp h).2 (by decide)

theorem verdict_perm_sample :
    Accepts .stored .unix (sampleHeader ()) [emptyFile, sampleRoot, fullFile] := by
  have hperm : [sampleRoot, emptyFile, fullFile].Perm [emptyFile, sampleRoot, fullFile] := by
    decide
  refine ((verdict_perm_iff .stored .stored .unix (sampleHeader ()) hperm).mpr fun _ => ?_).mp
    (accepts_iff.mpr ⟨acceptedSet_twoFiles (), by decide⟩)
  decide

end CipherFS.V2
