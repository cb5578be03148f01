import CipherFS.Core.V2.ChunkLayout

/-!
# The names `validate_name` accepts

The path grammar drops what follows a trailing separator, so a name passes when
it is one component, or one component and then only separators and `.`. Which
characters separate depends on the platform of the reader.
-/

namespace CipherFS.V2

open Result

variable {W : Type} {os : Platform} {s base tail : List Char} {name : String}

/-! ## One component -/

/-- A component that names something. -/
structure IsName (os : Platform) (s : List Char) : Prop where
  ne_nil : s ≠ []
  ne_dot : s ≠ ['.']
  ne_dots : s ≠ ['.', '.']
  no_separator : ∀ c ∈ s, os.isSeparator c = false

/-- Nothing that the grammar keeps. -/
def Dropped (os : Platform) (s : List Char) : Prop :=
  ∀ piece ∈ s.splitOnP os.isSeparator, piece = [] ∨ piece = ['.']

/-- A name, a separator, and nothing that the grammar keeps. -/
def Trailing (os : Platform) (s : List Char) : Prop :=
  ∃ base sep tail, s = base ++ sep :: tail ∧ IsName os base ∧ os.isSeparator sep = true ∧
    Dropped os tail

theorem pieceComponent_eq_none : pieceComponent s = none ↔ s = [] ∨ s = ['.'] := by
  unfold pieceComponent
  split <;> simp_all

theorem pieceComponent_of_name (h : IsName os s) : pieceComponent s = some (.normal s) := by
  unfold pieceComponent
  split
  · exact absurd rfl h.ne_nil
  · exact absurd rfl h.ne_dot
  · exact absurd rfl h.ne_dots
  · rfl

theorem isSeparator_dot (os : Platform) : os.isSeparator '.' = false := by
  cases os <;> rfl

/-- A relative path whose first component is a name has the components of its pieces. -/
theorem bodyComponents_of_name (h : IsName os base) (rest : List Char) :
    bodyComponents os (base ++ rest) =
      ((base ++ rest).splitOnP os.isSeparator).filterMap pieceComponent := by
  obtain ⟨c, base, rfl⟩ := List.exists_cons_of_ne_nil h.ne_nil
  have hc : os.isSeparator c = false := h.no_separator c List.mem_cons_self
  by_cases hdot : c = '.'
  · subst hdot
    cases base with
    | nil => exact absurd rfl h.ne_dot
    | cons d base =>
        have hd : os.isSeparator d = false := h.no_separator d (by simp)
        rw [List.cons_append, List.cons_append, bodyComponents]
        simp [hd]
  · rw [List.cons_append, bodyComponents, hc]
    · simp
    · exact hdot

/-- The first component of a path that is not one name. -/
theorem bodyComponents_of_not_name (h : ¬IsName os base)
    (hbase : ∀ c ∈ base, os.isSeparator c = false) {rest : List Char}
    (hrest : rest.head?.all os.isSeparator = true) {n : List Char} :
    bodyComponents os (base ++ rest) ≠ [.normal n] := by
  have hname : base = [] ∨ base = ['.'] ∨ base = ['.', '.'] := by
    by_contra hnot
    rw [not_or, not_or] at hnot
    exact h ⟨hnot.1, hnot.2.1, hnot.2.2, hbase⟩
  intro hone
  rcases hname with rfl | rfl | rfl
  · cases rest with
    | nil => cases hone
    | cons sep tail =>
        have hsep : os.isSeparator sep = true := hrest
        have hdot : sep ≠ '.' := by
          rintro rfl
          rw [isSeparator_dot] at hsep
          cases hsep
        rw [List.nil_append, bodyComponents, if_pos hsep] at hone
        · cases (List.cons.inj hone).1
        · exact hdot
  · rw [List.cons_append, List.nil_append, bodyComponents, if_pos hrest] at hone
    cases (List.cons.inj hone).1
  · have hdots : ((['.', '.'] ++ rest).splitOnP os.isSeparator).filterMap pieceComponent =
        [.normal n] := by
      have hhead : ('.' :: rest).head?.all os.isSeparator = false := isSeparator_dot os
      rw [List.cons_append, List.cons_append, List.nil_append, bodyComponents, hhead] at hone
      exact hone
    cases rest with
    | nil =>
        rw [List.append_nil, List.splitOnP_eq_singleton hbase] at hdots
        cases (List.cons.inj hdots).1
    | cons sep tail =>
        rw [List.splitOnP_append_cons_of_forall_mem hbase sep hrest] at hdots
        cases (List.cons.inj hdots).1

/-- A path up to its first separator. -/
theorem exists_first_piece (os : Platform) : ∀ s : List Char, ∃ base rest, s = base ++ rest ∧
    (∀ c ∈ base, os.isSeparator c = false) ∧ rest.head?.all os.isSeparator = true
  | [] => ⟨[], [], rfl, nofun, rfl⟩
  | c :: s => by
      cases hc : os.isSeparator c with
      | true => exact ⟨[], c :: s, rfl, nofun, hc⟩
      | false =>
          obtain ⟨base, rest, rfl, hbase, hrest⟩ := exists_first_piece os s
          exact ⟨c :: base, rest, rfl, List.forall_mem_cons.mpr ⟨hc, hbase⟩, hrest⟩

/-- **What the grammar reads as one name.** -/
theorem bodyComponents_eq_normal :
    (∃ n, bodyComponents os s = [.normal n]) ↔ IsName os s ∨ Trailing os s := by
  obtain ⟨base, rest, rfl, hbase, hrest⟩ := exists_first_piece os s
  constructor
  · rintro ⟨n, hone⟩
    by_cases h : IsName os base
    · rw [bodyComponents_of_name h] at hone
      cases rest with
      | nil =>
          rw [List.append_nil]
          exact .inl h
      | cons sep tail =>
          rw [List.splitOnP_append_cons_of_forall_mem hbase sep hrest, List.filterMap_cons,
            pieceComponent_of_name h] at hone
          refine .inr ⟨base, sep, tail, rfl, h, hrest, fun piece hpiece => ?_⟩
          have hnil := List.filterMap_eq_nil_iff.mp (List.cons.inj hone).2
          exact pieceComponent_eq_none.mp (hnil piece hpiece)
    · exact absurd hone (bodyComponents_of_not_name h hbase hrest)
  · rintro (h | ⟨base', sep, tail, heq, h, hsep, hdropped⟩)
    · refine ⟨base ++ rest, ?_⟩
      have hbody := bodyComponents_of_name h []
      rw [List.append_nil, List.splitOnP_eq_singleton h.no_separator, List.filterMap_cons,
        pieceComponent_of_name h] at hbody
      exact hbody
    · refine ⟨base', ?_⟩
      rw [heq, bodyComponents_of_name h,
        List.splitOnP_append_cons_of_forall_mem h.no_separator sep hsep, List.filterMap_cons,
        pieceComponent_of_name h]
      refine congrArg (Component.normal base' :: ·) (List.filterMap_eq_nil_iff.mpr ?_)
      exact fun piece hpiece => pieceComponent_eq_none.mpr (hdropped piece hpiece)

/-! ## The check -/

/-- A path that starts with a drive on Windows. -/
def DrivePrefixed (s : List Char) : Prop := ∃ c rest, s = c :: ':' :: rest ∧ c.isAlpha = true

theorem components_eq_normal : (∃ n, components os s = [.normal n]) ↔
    (os = .windows → ¬DrivePrefixed s) ∧ (IsName os s ∨ Trailing os s) := by
  rw [← bodyComponents_eq_normal]
  unfold components
  split
  · rename_i c rest
    split
    · rename_i hc
      refine iff_of_false ?_ fun h => h.1 rfl ⟨c, rest, rfl, hc⟩
      rintro ⟨n, hn⟩
      cases (List.cons.inj hn).1
    · rename_i hc
      refine (and_iff_right fun _ => ?_).symm
      rintro ⟨d, rest', heq, hd⟩
      rw [← (List.cons.inj heq).1] at hd
      exact hc hd
  · rename_i hnot
    refine (and_iff_right ?_).symm
    rintro rfl ⟨c, rest, rfl, -⟩
    exact hnot c rest rfl rfl

theorem validateName_eq_ok : validateName os name = .ok () ↔
    name ≠ "" ∧ name.utf8ByteSize ≤ maxNameBytes ∧
      (os = .windows → ¬DrivePrefixed name.toList) ∧
      (IsName os name.toList ∨ Trailing os name.toList) := by
  rw [← components_eq_normal]
  simp only [validateName, bind_eq_ok, rejectIf_eq_ok, String.isEmpty_iff, not_or, gt_iff_lt,
    Nat.not_lt, ← ne_eq]
  constructor
  · rintro ⟨-, ⟨hne, hlen⟩, hmatch⟩
    split at hmatch
    · rename_i n heq
      exact ⟨hne, hlen, n, heq⟩
    · cases hmatch
  · rintro ⟨hne, hlen, n, heq⟩
    exact ⟨(), ⟨hne, hlen⟩, by rw [heq]⟩

/-! ## Readers on Unix -/

/-- A single safe filename component. -/
structure SafeComponent (name : String) : Prop where
  nonempty : name ≠ ""
  length : name.utf8ByteSize ≤ 255
  no_slash : '/' ∉ name.toList
  ne_dot : name ≠ "."
  ne_dots : name ≠ ".."

/-- A short name that goes on after its first component, but only with
separators and `.`. -/
def EndsInSlash (name : String) : Prop :=
  name.utf8ByteSize ≤ 255 ∧ Trailing .unix name.toList

theorem toList_ne {name : String} {s : List Char} (h : name ≠ String.ofList s) :
    name.toList ≠ s := by
  rintro rfl
  exact h String.ofList_toList.symm

theorem isName_unix (h : SafeComponent name) : IsName .unix name.toList where
  ne_nil := toList_ne h.nonempty
  ne_dot := toList_ne h.ne_dot
  ne_dots := toList_ne h.ne_dots
  no_separator c hc := by
    have hne : c ≠ '/' := by
      rintro rfl
      exact h.no_slash hc
    exact decide_eq_false hne

theorem safeComponent_iff : SafeComponent name ↔
    name.utf8ByteSize ≤ 255 ∧ IsName .unix name.toList := by
  refine ⟨fun h => ⟨h.length, isName_unix h⟩, fun ⟨hlen, h⟩ => ⟨?_, hlen, ?_, ?_, ?_⟩⟩
  · rintro rfl
    exact h.ne_nil rfl
  · intro hslash
    cases h.no_separator '/' hslash
  · rintro rfl
    exact h.ne_dot rfl
  · rintro rfl
    exact h.ne_dots rfl

/-- A path of one name and a trailing separator contains the separator. -/
theorem Trailing.not_isName (h : Trailing os s) : ¬IsName os s := by
  obtain ⟨base, sep, tail, rfl, -, hsep, -⟩ := h
  intro hname
  rw [hname.no_separator sep (by simp)] at hsep
  cases hsep

/-- **On Unix the check accepts exactly the safe components, apart from names
that end in a separator.** -/
theorem validateName_unix_iff (name : String) :
    (validateName .unix name = .ok () ↔ SafeComponent name) ↔ ¬EndsInSlash name := by
  have hok : validateName .unix name = .ok () ↔ SafeComponent name ∨ EndsInSlash name := by
    have hunix : ¬Platform.unix = .windows := nofun
    have hne : IsName .unix name.toList ∨ Trailing .unix name.toList → name ≠ "" := by
      rintro (h | ⟨base, sep, tail, heq, h, -⟩) rfl
      · exact h.ne_nil rfl
      · exact List.cons_ne_nil _ _ (List.append_eq_nil_iff.mp heq.symm).2
    rw [validateName_eq_ok, safeComponent_iff, EndsInSlash, ← and_or_left]
    exact ⟨fun ⟨_, hlen, _, h⟩ => ⟨hlen, h⟩,
      fun ⟨hlen, h⟩ => ⟨hne h, hlen, fun hos => absurd hos hunix, h⟩⟩
  rw [hok]
  constructor
  · intro h hslash
    exact hslash.2.not_isName (isName_unix (h.mp (.inr hslash)))
  · intro h
    exact or_iff_left h

/-- A name that ends in a separator is accepted. -/
theorem slash_accepted : validateName .unix "a/" = .ok () ∧ ¬SafeComponent "a/" := by
  refine ⟨by decide, fun h => h.no_slash ?_⟩
  decide

/-! ## Readers on Windows -/

/-- A Unix name that is one component on Windows too. -/
def Portable (name : String) : Prop :=
  ¬DrivePrefixed name.toList ∧ ('\\' ∉ name.toList ∨ Trailing .windows name.toList)

theorem isName_windows (h : SafeComponent name) :
    IsName .windows name.toList ↔ '\\' ∉ name.toList := by
  constructor
  · intro hname hback
    cases hname.no_separator _ hback
  · intro hback
    have hunix := isName_unix h
    refine ⟨hunix.ne_nil, hunix.ne_dot, hunix.ne_dots, fun c hc => ?_⟩
    have hslash : c ≠ '/' := by
      rintro rfl
      exact h.no_slash hc
    have hne : c ≠ '\\' := by
      rintro rfl
      exact hback hc
    simp [Platform.isSeparator, hslash, hne]

theorem validateName_windows (h : SafeComponent name) :
    validateName .windows name = .ok () ↔ Portable name := by
  rw [validateName_eq_ok, isName_windows h]
  constructor
  · exact fun ⟨_, _, hdrive, hname⟩ => ⟨hdrive rfl, hname⟩
  · exact fun ⟨hdrive, hname⟩ => ⟨h.nonempty, h.length, fun _ => hdrive, hname⟩

/-- Only the names depend on the platform. -/
theorem AcceptedIndex.onWindows {header : Header W} {es : List Entry}
    (h : AcceptedIndex .unix header es) : AcceptedIndex .windows header es ↔
      ∀ e ∈ es, e.id ≠ 1 → validateName .windows e.name = .ok () := by
  constructor
  · intro hw e he hid
    have hname := (hw.entries e he).root_or_name
    rwa [if_neg hid] at hname
  · intro hnames
    refine { h with entries := fun e he => ?_ }
    refine { h.entries e he with root_or_name := ?_ }
    have hroot := (h.entries e he).root_or_name
    by_cases hid : e.id = 1
    · rw [if_pos hid] at hroot ⊢
      exact hroot
    · rw [if_neg hid]
      exact hnames e he hid

/-- **A container from Unix is accepted on Windows exactly when its names are
portable**: no drive, and no backslash except at the end. -/
theorem accepted_on_windows_iff {ω ω' : IterOrder} {header : Header W} {index : Index}
    {v : ValidatedIndex} (h : validateIndex ω .unix header index = .ok v)
    (hnames : ∀ e ∈ index.entries, e.id ≠ 1 → SafeComponent e.name) :
    (∀ name, SafeComponent name → (validateName .windows name = .ok () ↔ Portable name)) ∧
    ((∃ v', validateIndex ω' .windows header index = .ok v') ↔
      ∀ e ∈ index.entries, e.id ≠ 1 → Portable e.name) := by
  refine ⟨fun name => validateName_windows, ?_⟩
  simp only [validateIndex_eq_ok, exists_and_left, exists_eq, and_true]
  rw [(validateIndex_eq_ok.mp h).1.onWindows]
  refine forall₂_congr fun e he => forall_congr' fun hid => ?_
  exact validateName_windows (hnames e he hid)

theorem accepted_on_windows_sample : ∃ v, validateIndex .stored .windows (sampleHeader ())
    sampleIndex = .ok v := by
  have hname : ∀ e ∈ sampleIndex.entries, e.id ≠ 1 → e.name = "docs" ∨ e.name = "note" := by
    decide
  have hsafe : SafeComponent "docs" ∧ SafeComponent "note" := by
    constructor <;> exact ⟨by decide, by decide, by decide, by decide, by decide⟩
  have haccepted : validateIndex .stored .unix (sampleHeader ()) sampleIndex =
      .ok (indexOf sampleIndex.entries) := validateIndex_eq_ok.mpr ⟨sampleIndex_accepted (), rfl⟩
  refine (accepted_on_windows_iff haccepted ?_).2.mpr ?_
  · intro e he hid
    rcases hname e he hid with h | h
    · exact h ▸ hsafe.1
    · exact h ▸ hsafe.2
  · intro e he hid
    rcases hname e he hid with h | h
    · exact h ▸ (validateName_windows hsafe.1).mp (by decide)
    · exact h ▸ (validateName_windows hsafe.2).mp (by decide)

/-- Unix names that no reader on Windows accepts. -/
theorem backslash_not_portable :
    (SafeComponent "a\\b" ∧ validateName .unix "a\\b" = .ok () ∧
      validateName .windows "a\\b" ≠ .ok ()) ∧
    (SafeComponent "c:d" ∧ validateName .unix "c:d" = .ok () ∧
      validateName .windows "c:d" ≠ .ok ()) := by
  refine ⟨⟨⟨?_, ?_, ?_, ?_, ?_⟩, ?_, ?_⟩, ⟨?_, ?_, ?_, ?_, ?_⟩, ?_, ?_⟩ <;> decide

end CipherFS.V2
