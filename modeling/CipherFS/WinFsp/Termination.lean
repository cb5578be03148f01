import CipherFS.Core.Extract
import CipherFS.Core.WindowsNames.Ordinal
import CipherFS.WinFsp.Names

/-!
# The loops behind display names

`WindowsNameMap::new` has three loops that no bound in the code ends: the attempts
at a name, the shortening of a candidate and the walk to the root. Each of them
ends.
-/

namespace CipherFS.WinFsp

open V2 ReadOnlyFs WindowsNames

/-! ## Shortening -/

/-- The `while` loop of `mapped_name`, where `pop` of an empty name does nothing. -/
def popLoop (suffixLen : Nat) : Nat → List Char → Option (List Char)
  | 0, _ => none
  | fuel + 1, cleaned =>
    if utf16Len cleaned + suffixLen > 255 then popLoop suffixLen fuel cleaned.dropLast
    else some cleaned

/-- The loop ends on the empty name at the latest. -/
theorem popLoop_eq {suffixLen : Nat} (hsuffix : suffixLen ≤ 255) (reversed : List Char) :
    popLoop suffixLen (reversed.length + 1) reversed.reverse =
      some (popWhileLong suffixLen reversed).reverse := by
  induction reversed with
  | nil =>
      have hempty : ¬utf16Len [] + suffixLen > 255 := by
        rw [show utf16Len [] = 0 from rfl]
        omega
      rw [popLoop, List.reverse_nil, if_neg hempty]
      rfl
  | cons c rest ih =>
      rw [List.length_cons, popLoop, utf16Len_reverse, popWhileLong]
      by_cases hlong : utf16Len (c :: rest) + suffixLen > 255
      · rw [if_pos hlong, if_pos hlong, List.reverse_cons, List.dropLast_concat, ih]
      · rw [if_neg hlong, if_neg hlong]

/-- **The shortening ends, and what it leaves is short enough.** -/
theorem mappedName_loop (name : String) (id attempt : UInt64) : ∃ kept,
    popLoop (utf16Len (suffixOf id attempt)) ((cleanName name.toList).length + 1)
      (cleanName name.toList) = some kept ∧
    mappedName name id attempt = String.ofList (kept ++ suffixOf id attempt) ∧
    utf16Len (mappedName name id attempt).toList ≤ 255 := by
  have hsuffix := utf16Len_suffixOf_le id attempt
  refine ⟨_, ?_, rfl, utf16Len_mappedName_le name id attempt⟩
  have hloop := popLoop_eq (show utf16Len (suffixOf id attempt) ≤ 255 by omega)
    (cleanName name.toList).reverse
  rwa [List.length_reverse, List.reverse_reverse] at hloop

/-! ## The walk to the root -/

variable {W : Type} {os : Platform} {header : Header W} {es : List Entry} {nodes : List Node}

/-- The walk ends from wherever it starts. -/
theorem nodePath_ends (h : AcceptedIndex os header es) (hnodes : nodes.Perm (es.map Node.ofEntry))
    (names : HashMap UInt64 String) {steps : Nat} (hsteps : 1024 < steps) (id : UInt64) :
    ∃ parts, nodePath (byId nodes) names steps id = some parts := by
  have hids := nodup_ids_of_perm h hnodes
  cases hlook : (byId nodes).lookup id with
  | none =>
      obtain ⟨steps, rfl⟩ : ∃ n, steps = n + 1 := ⟨steps - 1, by omega⟩
      exact ⟨[], by rw [nodePath, hlook]⟩
  | some node =>
      obtain ⟨hmem, rfl⟩ := (byId_lookup hids).mp hlook
      obtain ⟨e, he, rfl⟩ := List.mem_map.mp (hnodes.subset hmem)
      have hdepth : e.depth.toNat ≤ 1024 := (h.entries e he).depth_le
      exact exists_nodePath h hids hnodes names steps he (by omega)

/-! ## All loops -/

/-- **The loops of `new` end.** On the nodes of an accepted index `new` returns. An
attempt loop finds a name after at most one try more than there are used ones,
since the candidates of different attempts are never equivalent. The shortening
comes to at most 255 units, and the walk to the root ends for every node. -/
theorem new_terminates {ω : IterOrder} {index : Index} {v : ValidatedIndex}
    (hindex : validateIndex ω os header index = .ok v) (T : CaseTables) :
    (∀ nodes, nodes.Perm (index.entries.map Node.ofEntry) → ∀ ω fuel, 2 * maxEntries < fuel →
      ∃ map, WindowsNameMap.new T.ordinal ω fuel nodes = some map) ∧
    (∀ (used : List (List UInt16)) (child : Node), used.length < 2 ^ 64 → ∃ display,
      chooseName T.ordinal used child (used.length + 1) 0 = some display ∧
        T.ordinal display ∉ used) ∧
    (∀ name id a b, a ≠ b →
      ¬Equivalent T.ordinal (mappedName name id a) (mappedName name id b)) ∧
    (∀ name id attempt, ∃ kept,
      popLoop (utf16Len (suffixOf id attempt)) ((cleanName name.toList).length + 1)
        (cleanName name.toList) = some kept ∧
      mappedName name id attempt = String.ofList (kept ++ suffixOf id attempt) ∧
      utf16Len (mappedName name id attempt).toList ≤ 255) ∧
    ∀ nodes, nodes.Perm (index.entries.map Node.ofEntry) → ∀ names steps, 1024 < steps → ∀ id,
      ∃ parts, nodePath (byId nodes) names steps id = some parts := by
  obtain ⟨h, rfl⟩ := validateIndex_eq_ok.mp hindex
  refine ⟨?_, ?_, ?_, mappedName_loop, ?_⟩
  · intro nodes hnodes ω fuel hfuel
    exact exists_new h (separatesAttempts T) hnodes ω hfuel
  · intro used child hused
    have hsome := isSome_chooseName (separatesAttempts T) (c := child) (Nat.lt_succ_self used.length)
      hused
    obtain ⟨display, hchoose⟩ := Option.isSome_iff_exists.mp hsome
    exact ⟨display, hchoose, chooseName_fresh hchoose⟩
  · intro name id a b hne hequiv
    exact hne (separatesAttempts T name id a b hequiv)
  · intro nodes hnodes names steps hsteps id
    exact nodePath_ends h hnodes names hsteps id

/-- An extraction always finds the names that it asks for. -/
theorem exists_windowsNames {Key : Type} (R : Reader Key) {ω : IterOrder} {index : Index}
    {v : ValidatedIndex} (hindex : validateIndex ω os header index = .ok v) :
    ∃ map, WindowsNameMap.new R.tables.ordinal R.order (2 * maxEntries + 1)
      ((R.order.arrange v.entries.values).map Node.ofEntry) = some map := by
  obtain ⟨h, rfl⟩ := validateIndex_eq_ok.mp hindex
  have hperm := (h.values_indexOf_perm R.order).map Node.ofEntry
  exact exists_new h (separatesAttempts R.tables) hperm R.order (Nat.lt_succ_self _)

/-- A directory that needs another name, beside one with its first candidate as its
own name. -/
def contested : Entry := { sampleDirectory with name := "CON" }
def contender : Entry := { sampleDirectory with id := 3, name := "con~cfs-0000000000000002" }

def contestedIndex : Index := ⟨[sampleRoot, contested, contender]⟩
def contestedHeader : Header Unit := { sampleHeader () with dataSize := 0 }

theorem contestedIndex_accepted :
    AcceptedIndex .unix contestedHeader contestedIndex.entries where
  count := rfl
  count_le := by decide
  entries := by
    have hname : validateName .unix contested.name = .ok () ∧
        validateName .unix contender.name = .ok () := by
      decide
    intro e he
    simp only [contestedIndex, List.mem_cons, List.not_mem_nil, or_false] at he
    rcases he with rfl | rfl | rfl
    · exact ⟨by decide, by decide, by decide, by decide, by decide⟩
    · exact ⟨by decide, by decide, hname.1, by decide, by decide⟩
    · exact ⟨by decide, by decide, hname.2, by decide, by decide⟩
  ids := by decide
  fileIds := by decide
  root := ⟨sampleRoot, by simp [contestedIndex], rfl⟩
  parents := by
    intro e he hid
    simp only [contestedIndex, List.mem_cons, List.not_mem_nil, or_false] at he
    rcases he with rfl | rfl | rfl
    · exact absurd rfl hid
    · exact ⟨sampleRoot, by simp [contestedIndex], rfl, rfl, rfl⟩
    · exact ⟨sampleRoot, by simp [contestedIndex], rfl, rfl, rfl⟩
  siblings := by decide
  layout := by
    have hfiles : fileExtents contestedIndex.entries = [] := rfl
    rw [hfiles, sortByOffset, List.mergeSort_nil]
    rfl

/-- The second attempt gives `CON` its name, and a name of three hundred letters is
shortened. -/
theorem new_terminates_sample :
    (∃ map, WindowsNameMap.new CaseTables.ascii.ordinal .stored (2 * maxEntries + 1)
      (contestedIndex.entries.map Node.ofEntry) = some map) ∧
    (∃ display, chooseName CaseTables.ascii.ordinal [CaseTables.ascii.ordinal contender.name]
      (Node.ofEntry contested) 2 0 = some display ∧ display ≠ mappedName contested.name 2 0) ∧
    ∃ kept, mappedName (String.ofList (List.replicate 300 'a')) 2 0 =
      String.ofList (kept ++ suffixOf 2 0) ∧ utf16Len kept < 300 := by
  have haccepted : validateIndex .stored .unix contestedHeader contestedIndex =
      .ok (indexOf contestedIndex.entries) := validateIndex_eq_ok.mpr ⟨contestedIndex_accepted, rfl⟩
  obtain ⟨hnew, hchoose, -, hshorten, -⟩ := new_terminates haccepted CaseTables.ascii
  refine ⟨hnew _ (.refl _) .stored _ (Nat.lt_succ_self _), ?_, ?_⟩
  · obtain ⟨display, hdisplay, hfresh⟩ :=
      hchoose [CaseTables.ascii.ordinal contender.name] (Node.ofEntry contested) (by decide)
    refine ⟨display, hdisplay, ?_⟩
    rintro rfl
    have hfirst : CaseTables.ascii.ordinal (mappedName contested.name 2 0) =
        CaseTables.ascii.ordinal contender.name := by decide +kernel
    exact hfresh (List.mem_singleton.mpr hfirst)
  · obtain ⟨kept, -, heq, hlen⟩ := hshorten (String.ofList (List.replicate 300 'a')) 2 0
    refine ⟨kept, heq, ?_⟩
    rw [heq, String.toList_ofList, utf16Len_append] at hlen
    omega

end CipherFS.WinFsp
