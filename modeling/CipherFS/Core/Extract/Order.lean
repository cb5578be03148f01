import CipherFS.Core.Extract.Batches
import CipherFS.Core.V2.ChunkLayout
import CipherFS.Framework.StableSort

/-!
# The order of the extraction and the names it uses

Entries are taken by depth and id, so every entry comes after its parent. The
path of an entry is its own, and a temporary name with the id of its entry in it
is that of no other temporary file.
-/

namespace CipherFS.Extract

open V2 StableSort

variable {W : Type} {ω : IterOrder} {v : ValidatedIndex} {os : Platform} {header : Header W}
  {es : List Entry} {e e' p : Entry}

/-! ## Order -/

theorem extractionOrder_perm (ω : IterOrder) (v : ValidatedIndex) :
    (extractionOrder ω v).Perm v.entries.values := (List.mergeSort_perm _ _).trans (ω.perm _)

/-- **An entry that is less deep comes first.** -/
theorem mem_before {pre post : List Entry} (hsplit : extractionOrder ω v = pre ++ e :: post)
    (hp : p ∈ v.entries.values) (hdepth : p.depth < e.depth) : p ∈ pre := by
  have hmem : p ∈ pre ++ e :: post := by
    rw [← hsplit]
    exact (extractionOrder_perm ω v).mem_iff.mpr hp
  have hsorted : (pre ++ e :: post).Pairwise fun a b =>
      decide (a.depth < b.depth ∨ a.depth = b.depth ∧ a.id ≤ b.id) = true := by
    rw [← hsplit]
    exact List.pairwise_mergeSort (keys_trans Entry.depth Entry.id)
      (keys_total Entry.depth Entry.id) _
  rcases List.mem_append.mp hmem with hp | hp
  · exact hp
  · exfalso
    rcases List.mem_cons.mp hp with rfl | hp
    · exact UInt32.lt_irrefl _ hdepth
    · have hle := (List.pairwise_cons.mp (List.pairwise_append.mp hsorted).2.1).1 p hp
      rcases of_decide_eq_true hle with hlt | ⟨heq, -⟩
      · exact UInt32.lt_asymm hlt hdepth
      · rw [heq] at hdepth
        exact UInt32.lt_irrefl _ hdepth

/-! ## Paths -/

/-- Where an entry lies below the staging directory. -/
def entryPath (v : ValidatedIndex) (e : Entry) : Path := (v.pathTo e).map .utf8

/-- What an extraction needs of an index. -/
structure Extractable (v : ValidatedIndex) : Prop where
  nodup : v.entries.values.Nodup
  ids : ∀ e ∈ v.entries.values, ∀ e' ∈ v.entries.values, e.id = e'.id → e = e'
  root : ∃ e ∈ v.entries.values, e.id = 1
  root_path : ∀ e ∈ v.entries.values, e.id = 1 → e.kind = .directory ∧ entryPath v e = []
  child : ∀ e ∈ v.entries.values, e.id ≠ 1 → ∃ p ∈ v.entries.values, p.id = e.parentId ∧
    p.kind = .directory ∧ p.depth < e.depth ∧ entryPath v e = entryPath v p ++ [.utf8 e.name]
  injective : ∀ e ∈ v.entries.values, ∀ e' ∈ v.entries.values, entryPath v e = entryPath v e' →
    e = e'

/-- **Every accepted index can be extracted.** -/
theorem extractable_indexOf (h : AcceptedIndex os header es) :
    Extractable (indexOf es) := by
  have hvalues : (indexOf es).entries.values.Perm es := h.values_indexOf_perm .stored
  have hmem : ∀ e, e ∈ (indexOf es).entries.values ↔ e ∈ es := fun e => hvalues.mem_iff
  have hutf8 : Function.Injective OsString.utf8 := fun _ _ hn => OsString.utf8.inj hn
  refine
    { nodup := hvalues.nodup_iff.mpr h.ids.of_map
      ids := ?_, root := ?_, root_path := ?_, child := ?_, injective := ?_ }
  all_goals simp only [hmem]
  · exact fun e he e' he' hid => h.eq_of_id_eq he he' hid
  · exact h.root
  · intro e he hid
    refine ⟨(h.root_entry he hid).2.2.1, ?_⟩
    rw [entryPath, h.pathTo_root he hid]
    rfl
  · intro e he hid
    obtain ⟨p, hp, hpid, hkind, hdepth, hpath⟩ := h.pathTo_child he hid
    refine ⟨p, hp, hpid, hkind, hdepth, ?_⟩
    rw [entryPath, hpath, List.map_append]
    rfl
  · exact fun e he e' he' heq => h.pathTo_injective he he' (List.map_injective_iff.mpr hutf8 heq)

/-- No entry lies at a path whose last name is no entry's. -/
theorem Extractable.ne (h : Extractable v) (he : e ∈ v.entries.values) {q : Path} {a : OsString}
    (ha : ∀ e' ∈ v.entries.values, a ≠ .utf8 e'.name) : entryPath v e ≠ q ++ [a] := by
  intro heq
  by_cases hid : e.id = 1
  · rw [(h.root_path e he hid).2] at heq
    exact List.append_ne_nil_of_right_ne_nil _ (List.cons_ne_nil _ _) heq.symm
  · obtain ⟨p, -, -, -, -, hpath⟩ := h.child e he hid
    rw [hpath] at heq
    exact ha e he (List.cons.inj (List.append_inj' heq rfl).2).1.symm

/-! ## Temporary names -/

theorem dash_notMem_repr (n : Nat) : '-' ∉ n.repr.toList := by
  intro hmem
  rw [Nat.toList_repr] at hmem
  have hdigit := Nat.isDigit_of_mem_toDigits (by decide) (by decide) hmem
  exact absurd hdigit (by decide)

theorem repr_injective {n m : Nat} (h : n.repr = m.repr) : n = m := by
  have hlist := congrArg String.toList h
  rw [Nat.toList_repr, Nat.toList_repr] at hlist
  rw [← Nat.ofDigitChars_ten_toDigits (n := n), hlist, Nat.ofDigitChars_ten_toDigits]

/-- A temporary name has the id of its entry in it. -/
theorem tempName_injective {id id' : UInt64} {r r' : ByteArr 8}
    (h : SafeRoot.tempName id r = SafeRoot.tempName id' r') : id = id' := by
  have hlist := congrArg String.toList (OsString.utf8.inj h)
  simp only [String.toList_append, List.append_assoc] at hlist
  have hrest := List.append_cancel_left hlist
  -- the digits go up to the first dash
  have hdigits : ∀ (n : Nat) (rest : List Char),
      (n.repr.toList ++ ("-".toList ++ rest)).takeWhile (· ≠ '-') = n.repr.toList := by
    intro n rest
    rw [List.takeWhile_append_of_pos]
    · exact List.append_nil _
    · intro c hc
      rw [decide_eq_true_eq]
      rintro rfl
      exact dash_notMem_repr n hc
  have hrepr := congrArg (List.takeWhile (· ≠ '-')) hrest
  have hid : id.toNat.repr.toList = id'.toNat.repr.toList :=
    (hdigits _ _).symm.trans (hrepr.trans (hdigits _ _))
  exact UInt64.toNat_inj.mp (repr_injective (String.toList_inj.mp hid))

end CipherFS.Extract
