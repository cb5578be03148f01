import Mathlib

/-!
# Names that Windows cannot show, and their replacements

`needs_mapping` and `mapped_name`, on the characters of a name. A replacement
repairs every defect that `needs_mapping` looks for but one: a reserved device
name that is followed by an extension stays reserved.
-/

namespace CipherFS.WindowsNames

/-! ## Characters -/

/-- `char::len_utf16`. -/
def utf16Units (c : Char) : Nat := if c.val ≤ 0xFFFF then 1 else 2

/-- `encode_utf16().count()`. -/
def utf16Len (cs : List Char) : Nat := (cs.map utf16Units).sum

/-- The characters that Windows refuses in a name. -/
def isIllegal (c : Char) : Bool := c.val ≤ 0x1F ∨ c ∈ "<>:\"/\\|?*".toList

/-- The characters that Windows strips from the end of a name. -/
def isTrailing (c : Char) : Bool := c = ' ' ∨ c = '.'

/-- `strip_prefix`. -/
def stripPrefix (start cs : List Char) : Option (List Char) :=
  if start.isPrefixOf cs then some (cs.drop start.length) else none

/-- The stems that name a device, in upper case. -/
def isDevice (upper : List Char) : Bool :=
  upper ∈ ["CON".toList, "PRN".toList, "AUX".toList, "NUL".toList] ∨
  ((stripPrefix "COM".toList upper).or (stripPrefix "LPT".toList upper)).any fun number =>
    number ∈ "123456789¹²³".toList.map fun c => [c]

/-- A stem that names a device. -/
def isReserved (stem : List Char) : Bool := isDevice (stem.map Char.toUpper)

/-- `needs_mapping`. -/
def needsMapping (name : String) : Bool :=
  name.toList.isEmpty ∨ name.toList.getLast?.any isTrailing ∨ name.toList.any isIllegal ∨
    utf16Len name.toList > 255 ∨ isReserved (name.toList.takeWhile (· ≠ '.'))

/-! ## Replacement -/

/-- `{:016x}`. -/
def hex16 (n : Nat) : List Char := (List.range 16).map fun i => (n / 16 ^ (15 - i) % 16).digitChar

/-- The suffix of `mapped_name`. -/
def suffixOf (id attempt : UInt64) : List Char :=
  "~cfs-".toList ++ hex16 id.toNat ++
    (if attempt = 0 then [] else '-' :: Nat.toDigits 10 attempt.toNat)

theorem suffixOf_def (id attempt : UInt64) : suffixOf id attempt =
    "~cfs-".toList ++ hex16 id.toNat ++
      (if attempt = 0 then [] else '-' :: Nat.toDigits 10 attempt.toNat) := rfl

/-- The character replacement of `mapped_name`. -/
def cleanChar (c : Char) : Char := if isIllegal c then '_' else c

/-- The name of `mapped_name` before it is shortened. -/
def cleanName (name : List Char) : List Char :=
  let cleaned := (name.map cleanChar).rdropWhile isTrailing
  if cleaned.isEmpty then "entry".toList else cleaned

/-- The `pop` loop of `mapped_name`, on the reversed name. A suffix of at most
255 units ends it on the empty name at the latest. -/
def popWhileLong (suffixLen : Nat) : List Char → List Char
  | [] => []
  | c :: rest => if utf16Len (c :: rest) + suffixLen > 255 then popWhileLong suffixLen rest
      else c :: rest

/-- `mapped_name`. -/
def mappedName (name : String) (id attempt : UInt64) : String :=
  let suffix := suffixOf id attempt
  String.ofList ((popWhileLong (utf16Len suffix) (cleanName name.toList).reverse).reverse ++ suffix)

example : mappedName "bad?.txt" 3 0 = "bad_.txt~cfs-0000000000000003" := by decide
example : mappedName "trailing. " 26 2 = "trailing~cfs-000000000000001a-2" := by decide
example : needsMapping "COM¹.txt" = true := by decide

/-- A device name before the first dot, and after it more than dots and blanks. -/
def reservedWithExtension (name : String) : Bool :=
  isReserved (name.toList.takeWhile (· ≠ '.')) ∧
    (name.toList.dropWhile (· ≠ '.')).any fun c => !isTrailing c

/-! ## Reserved stems -/

/-- The characters of device names. -/
def deviceChars : List Char := "CONPRAUXLMT123456789¹²³".toList

theorem stripPrefix_eq_some {start cs rest : List Char} :
    stripPrefix start cs = some rest ↔ cs = start ++ rest := by
  unfold stripPrefix
  split
  · rename_i h
    obtain ⟨r, rfl⟩ := List.isPrefixOf_iff_prefix.mp h
    rw [List.drop_left, Option.some.injEq, List.append_cancel_left_eq]
  · rename_i h
    simp only [reduceCtorEq, false_iff]
    rintro rfl
    exact h (List.isPrefixOf_iff_prefix.mpr (List.prefix_append _ _))

theorem forall_mem_of_all {l : List Char} {P : Char → Prop} [DecidablePred P]
    (h : l.all (fun c => decide (P c)) = true) : ∀ c ∈ l, P c := by
  intro c hc
  exact of_decide_eq_true (List.all_eq_true.mp h c hc)

theorem isDevice_cases {s : List Char} (h : isDevice s = true) :
    s.length ≤ 4 ∧ ∀ c ∈ s, c ∈ deviceChars := by
  simp only [isDevice, decide_eq_true_eq] at h
  rcases h with h | h
  · have hdevices : ∀ s ∈ ["CON".toList, "PRN".toList, "AUX".toList, "NUL".toList],
        s.length ≤ 4 ∧ s.all (fun c => decide (c ∈ deviceChars)) = true := by decide
    exact ⟨(hdevices s h).1, forall_mem_of_all (hdevices s h).2⟩
  · obtain ⟨number, hstrip, hnumber⟩ := Option.any_eq_true .. |>.mp h
    simp only [decide_eq_true_eq, List.mem_map] at hnumber
    obtain ⟨d, hd, rfl⟩ := hnumber
    have hnumbers : ∀ d ∈ "123456789¹²³".toList, d ∈ deviceChars := forall_mem_of_all (by decide)
    have hcom : ∀ c ∈ "COM".toList, c ∈ deviceChars := forall_mem_of_all (by decide)
    have hlpt : ∀ c ∈ "LPT".toList, c ∈ deviceChars := forall_mem_of_all (by decide)
    simp only [Option.or_eq_some_iff, stripPrefix_eq_some] at hstrip
    rcases hstrip with rfl | ⟨-, rfl⟩
    · refine ⟨by simp, fun c hc => ?_⟩
      rcases List.mem_append.mp hc with hc | hc
      · exact hcom c hc
      · rw [List.mem_singleton.mp hc]
        exact hnumbers d hd
    · refine ⟨by simp, fun c hc => ?_⟩
      rcases List.mem_append.mp hc with hc | hc
      · exact hlpt c hc
      · rw [List.mem_singleton.mp hc]
        exact hnumbers d hd

theorem length_le_of_isReserved {s : List Char} (h : isReserved s = true) : s.length ≤ 4 := by
  have hlen := (isDevice_cases h).1
  rwa [List.length_map] at hlen

theorem toUpper_eq_self {c : Char} (h : ¬('a'.val ≤ c.val ∧ c.val ≤ 'z'.val)) :
    c.toUpper = c := by
  rw [Char.toUpper, dif_neg h]

theorem toUpper_of_isIllegal {c : Char} (h : isIllegal c = true) : c.toUpper = c := by
  apply toUpper_eq_self
  rw [isIllegal, decide_eq_true_eq] at h
  rcases h with h | h
  · exact fun hlower => absurd (UInt32.le_trans hlower.1 h) (by decide)
  · have hlegal : ∀ c ∈ "<>:\"/\\|?*".toList, ¬('a'.val ≤ c.val ∧ c.val ≤ 'z'.val) :=
      forall_mem_of_all (by decide)
    exact hlegal c h

/-- No character of a device name is one that the replacement touches or adds. -/
theorem not_special_of_isReserved {s : List Char} (h : isReserved s = true) {c : Char}
    (hc : c ∈ s) : isIllegal c = false ∧ c ≠ '_' ∧ c ≠ '~' := by
  have hup := (isDevice_cases h).2 c.toUpper (List.mem_map_of_mem hc)
  have hdevice : ∀ d ∈ deviceChars, isIllegal d = false ∧ d ≠ '_' ∧ d ≠ '~' :=
    forall_mem_of_all (by decide)
  refine ⟨?_, ?_, ?_⟩
  · by_contra hill
    rw [Bool.not_eq_false] at hill
    rw [toUpper_of_isIllegal hill] at hup
    rw [(hdevice c hup).1] at hill
    cases hill
  · rintro rfl
    exact (hdevice _ hup).2.1 rfl
  · rintro rfl
    exact (hdevice _ hup).2.2 rfl

theorem isReserved_map_cleanChar {s : List Char} :
    isReserved (s.map cleanChar) = true ↔ isReserved s = true := by
  by_cases hill : ∃ c ∈ s, isIllegal c = true
  · obtain ⟨c, hc, hill⟩ := hill
    have hclean : '_' ∈ s.map cleanChar := List.mem_map.mpr ⟨c, hc, by rw [cleanChar, if_pos hill]⟩
    constructor
    · intro h
      exact absurd rfl (not_special_of_isReserved h hclean).2.1
    · intro h
      rw [(not_special_of_isReserved h hc).1] at hill
      cases hill
  · have hself : s.map cleanChar = s := by
      refine (List.map_congr_left fun c hc => ?_).trans (List.map_id s)
      rw [cleanChar, if_neg fun h => hill ⟨c, hc, h⟩]
      rfl
    rw [hself]

/-! ## The suffix -/

/-- The characters of a suffix: legal, not stripped, one unit each, and no dot. -/
structure SuffixChar (c : Char) : Prop where
  legal : isIllegal c = false
  kept : isTrailing c = false
  units : utf16Units c = 1

theorem suffixChar_of_mem : ∀ c ∈ "~cfs-0123456789abde".toList, SuffixChar c := by
  have hall : ∀ c ∈ "~cfs-0123456789abde".toList,
      isIllegal c = false ∧ isTrailing c = false ∧ utf16Units c = 1 :=
    forall_mem_of_all (by decide)
  exact fun c hc => ⟨(hall c hc).1, (hall c hc).2.1, (hall c hc).2.2⟩

theorem mem_of_isDigit {c : Char} (h : c.isDigit = true) : c ∈ "0123456789".toList := by
  have hval : c.val.toNat ≤ 57 ∧ 48 ≤ c.val.toNat := by
    simp only [Char.isDigit, Bool.and_eq_true, decide_eq_true_eq, ge_iff_le,
      UInt32.le_iff_toNat_le] at h
    exact ⟨h.2, h.1⟩
  have hchar : c = Char.ofNat c.val.toNat := (Char.ofNat_toNat c).symm
  have hdigits : ∀ n < 58, 48 ≤ n → Char.ofNat n ∈ "0123456789".toList := by decide
  rw [hchar]
  exact hdigits _ (Nat.lt_succ_of_le hval.1) hval.2

theorem suffixChar_suffixOf {id attempt : UInt64} : ∀ c ∈ suffixOf id attempt, SuffixChar c := by
  have hhex : ∀ d < 16, (d.digitChar) ∈ "~cfs-0123456789abde".toList := by decide
  have hdigits : "0123456789".toList ⊆ "~cfs-0123456789abde".toList := by decide
  intro c hc
  apply suffixChar_of_mem
  simp only [suffixOf_def, List.mem_append] at hc
  rcases hc with (hc | hc) | hc
  · have hsub : "~cfs-".toList ⊆ "~cfs-0123456789abde".toList := by decide
    exact hsub hc
  · obtain ⟨i, -, rfl⟩ := List.mem_map.mp hc
    exact hhex _ (Nat.mod_lt _ (by decide))
  · split at hc
    · cases hc
    · rcases List.mem_cons.mp hc with rfl | hc
      · decide
      · exact hdigits (mem_of_isDigit (Nat.isDigit_of_mem_toDigits (by decide) (by decide) hc))

theorem utf16Len_append (s t : List Char) : utf16Len (s ++ t) = utf16Len s + utf16Len t := by
  rw [utf16Len, List.map_append, List.sum_append, utf16Len, utf16Len]

theorem length_suffixOf_le (id attempt : UInt64) : (suffixOf id attempt).length ≤ 42 := by
  have hword := attempt.toNat_lt
  have hdecimal : (Nat.toDigits 10 attempt.toNat).length ≤ 20 :=
    (Nat.length_toDigits_le_iff (by decide) (by decide)).mpr (by omega)
  have hhex : (hex16 id.toNat).length = 16 := by simp [hex16]
  have hmark : "~cfs-".toList.length = 5 := by decide
  simp only [suffixOf_def, List.length_append, hhex, hmark]
  split
  · decide
  · simp only [List.length_cons]
    omega

theorem utf16Len_suffixOf_le (id attempt : UInt64) : utf16Len (suffixOf id attempt) ≤ 42 := by
  have hones : (suffixOf id attempt).map utf16Units =
      List.replicate (suffixOf id attempt).length 1 :=
    List.map_eq_replicate_iff.mpr fun c hc => (suffixChar_suffixOf c hc).units
  have hlen : utf16Len (suffixOf id attempt) = (suffixOf id attempt).length := by
    rw [utf16Len, hones, List.sum_replicate]
    exact Nat.mul_one _
  exact hlen.trans_le (length_suffixOf_le id attempt)

/-! ## Shortening -/

/-- The name as `mapped_name` shortens it for a suffix. -/
def shortName (name : List Char) (suffixLen : Nat) : List Char :=
  (popWhileLong suffixLen (cleanName name).reverse).reverse

theorem popWhileLong_suffix (n : Nat) : ∀ cs : List Char, popWhileLong n cs <:+ cs
  | [] => List.suffix_refl _
  | c :: rest => by
      rw [popWhileLong]
      split
      · exact (popWhileLong_suffix n rest).trans (List.suffix_cons c rest)
      · exact List.suffix_refl _

theorem utf16Len_popWhileLong {n : Nat} (hn : n ≤ 255) : ∀ cs : List Char,
    utf16Len (popWhileLong n cs) + n ≤ 255
  | [] => by simpa [popWhileLong, utf16Len] using hn
  | c :: rest => by
      rw [popWhileLong]
      split
      · exact utf16Len_popWhileLong hn rest
      · rename_i h
        exact Nat.not_lt.mp h

theorem utf16Len_reverse (cs : List Char) : utf16Len cs.reverse = utf16Len cs := by
  rw [utf16Len, List.map_reverse, List.sum_reverse, utf16Len]

theorem utf16Len_le (cs : List Char) : utf16Len cs ≤ 2 * cs.length := by
  induction cs with
  | nil => exact Nat.le_refl _
  | cons c rest ih =>
      have hunit : utf16Units c ≤ 2 := by
        unfold utf16Units
        split <;> omega
      rw [utf16Len, List.map_cons, List.sum_cons, ← utf16Len, List.length_cons]
      omega

/-- Only a name near the limit is shortened, and then to near the limit. -/
theorem popWhileLong_eq_or_long (n : Nat) : ∀ cs : List Char,
    popWhileLong n cs = cs ∨ 253 ≤ 2 * (popWhileLong n cs).length + n
  | [] => .inl rfl
  | c :: rest => by
      rw [popWhileLong]
      split
      · rename_i hlong
        rcases popWhileLong_eq_or_long n rest with heq | hlong'
        · right
          have hunit : utf16Units c ≤ 2 := by
            unfold utf16Units
            split <;> omega
          have hle := utf16Len_le rest
          rw [utf16Len, List.map_cons, List.sum_cons, ← utf16Len] at hlong
          rw [heq]
          omega
        · exact .inr hlong'
      · exact .inl rfl

theorem shortName_initial (name : List Char) (n : Nat) : shortName name n <+: cleanName name := by
  have h := List.reverse_prefix.mpr (popWhileLong_suffix n (cleanName name).reverse)
  rwa [List.reverse_reverse] at h

theorem utf16Len_shortName {n : Nat} (hn : n ≤ 255) (name : List Char) :
    utf16Len (shortName name n) + n ≤ 255 := by
  rw [shortName, utf16Len_reverse]
  exact utf16Len_popWhileLong hn _

/-- A short prefix of the cleaned name survives the shortening. -/
theorem prefix_shortName {name s : List Char} {n : Nat} (hn : n ≤ 42) (hs : s.length ≤ 100)
    (h : s <+: cleanName name) : s <+: shortName name n := by
  have hpre := shortName_initial name n
  refine List.prefix_of_prefix_length_le h hpre ?_
  rcases popWhileLong_eq_or_long n (cleanName name).reverse with heq | hlong
  · rw [shortName, heq, List.reverse_reverse]
    exact h.length_le
  · rw [shortName, List.length_reverse]
    omega

/-! ## Stems -/

section Stem

variable {s l rest : List Char}

theorem forall_ne_dot (h : '.' ∉ s) : ∀ c ∈ s, decide (c ≠ '.') = true := by
  intro c hc
  rw [decide_eq_true_eq]
  rintro rfl
  exact h hc

theorem takeWhile_stem (h : '.' ∉ s) : (s ++ '.' :: rest).takeWhile (· ≠ '.') = s := by
  rw [List.takeWhile_append_of_pos (forall_ne_dot h), List.takeWhile_cons_of_neg (by simp),
    List.append_nil]

theorem dropWhile_stem (h : '.' ∉ s) :
    (s ++ '.' :: rest).dropWhile (· ≠ '.') = '.' :: rest := by
  rw [List.dropWhile_append_of_pos (forall_ne_dot h), List.dropWhile_cons_of_neg (by simp)]

theorem dropWhile_of_no_dot (h : '.' ∉ l) : l.dropWhile (· ≠ '.') = [] :=
  List.dropWhile_eq_nil_iff.mpr (forall_ne_dot h)

theorem rdropWhile_append_of_exists {p : Char → Bool} {a : List Char} :
    ∀ {rest : List Char}, (∃ c ∈ rest, ¬p c) →
      (a ++ rest).rdropWhile p = a ++ rest.rdropWhile p := by
  intro rest
  induction rest using List.reverseRecOn with
  | nil =>
      rintro ⟨c, hc, -⟩
      cases hc
  | append_singleton rest x ih =>
      intro h
      by_cases hx : p x
      · have hrest : ∃ c ∈ rest, ¬p c := by
          obtain ⟨c, hc, hpc⟩ := h
          rcases List.mem_append.mp hc with hc | hc
          · exact ⟨c, hc, hpc⟩
          · exact absurd (List.mem_singleton.mp hc ▸ hx) hpc
        rw [← List.append_assoc, List.rdropWhile_concat_pos _ _ _ hx,
          List.rdropWhile_concat_pos _ _ _ hx, ih hrest]
      · rw [← List.append_assoc, List.rdropWhile_concat_neg _ _ _ hx,
          List.rdropWhile_concat_neg _ _ _ hx, List.append_assoc]

/-- A trimmed list that contains a strippable element has more after it. -/
theorem exists_of_rdropWhile {p : Char → Bool} {a : List Char} {x : Char} {rest : List Char}
    (h : l.rdropWhile p = a ++ x :: rest) (hx : p x) : ∃ c ∈ rest, ¬p c := by
  have hne : l.rdropWhile p ≠ [] := by simp [h]
  have hlast := List.rdropWhile_last_not p l hne
  cases rest using List.reverseRecOn with
  | nil =>
      simp only [h, List.getLast_append_singleton] at hlast
      exact absurd hx hlast
  | append_singleton rest c =>
      refine ⟨c, by simp, ?_⟩
      have hc : (l.rdropWhile p).getLast hne = c := by
        simp only [h, ← List.cons_append, ← List.append_assoc, List.getLast_append_singleton]
      rwa [hc] at hlast

end Stem

theorem reservedWithExtension_iff {name : String} : reservedWithExtension name = true ↔
    ∃ s rest, name.toList = s ++ '.' :: rest ∧ '.' ∉ s ∧ isReserved s = true ∧
      ∃ c ∈ rest, ¬isTrailing c = true := by
  rw [reservedWithExtension, decide_eq_true_eq]
  constructor
  · rintro ⟨hres, hext⟩
    by_cases hdot : '.' ∈ name.toList
    · obtain ⟨s, rest, hname, hs⟩ := List.eq_append_cons_of_mem hdot
      rw [hname, takeWhile_stem hs] at hres
      rw [hname, dropWhile_stem hs, List.any_cons] at hext
      exact ⟨s, rest, hname, hs, hres, by simpa [isTrailing] using hext⟩
    · rw [dropWhile_of_no_dot hdot] at hext
      cases hext
  · rintro ⟨s, rest, hname, hs, hres, c, hc, htrail⟩
    rw [hname, takeWhile_stem hs, dropWhile_stem hs]
    exact ⟨hres, List.any_eq_true.mpr ⟨c, List.mem_cons_of_mem _ hc, by simpa using htrail⟩⟩

theorem cleanChar_eq_dot {c : Char} : cleanChar c = '.' ↔ c = '.' := by
  unfold cleanChar
  split
  · rename_i h
    constructor
    · intro hdot
      cases hdot
    · rintro rfl
      cases h
  · rfl

theorem isTrailing_cleanChar (c : Char) : isTrailing (cleanChar c) = isTrailing c := by
  unfold cleanChar
  split
  · rename_i h
    have hc : isTrailing c = false := by
      rw [isTrailing, decide_eq_false_iff_not]
      rintro (rfl | rfl) <;> cases h
    rw [hc]
    decide
  · rfl

theorem isIllegal_cleanChar (c : Char) : isIllegal (cleanChar c) = false := by
  unfold cleanChar
  split
  · decide
  · rename_i h
    simpa using h

theorem map_cleanChar_stem {l s rest : List Char} (h : l.map cleanChar = s ++ '.' :: rest) :
    ∃ s₀ rest₀, l = s₀ ++ '.' :: rest₀ ∧ s₀.map cleanChar = s ∧ rest₀.map cleanChar = rest := by
  obtain ⟨s₀, tail, rfl, hs, htail⟩ := List.map_eq_append_iff.mp h
  obtain ⟨d, rest₀, rfl, hd, hrest⟩ := List.map_eq_cons_iff.mp htail
  rw [cleanChar_eq_dot] at hd
  exact ⟨s₀, rest₀, by rw [hd], hs, hrest⟩

theorem cleanName_cases (name : List Char) : cleanName name = "entry".toList ∨
    cleanName name = (name.map cleanChar).rdropWhile isTrailing := by
  unfold cleanName
  dsimp only
  split
  · exact .inl rfl
  · exact .inr rfl

/-- Cleaning keeps a reserved stem exactly when an extension holds it in place. -/
theorem cleanName_stem_iff {name : String} :
    (∃ s rest, cleanName name.toList = s ++ '.' :: rest ∧ '.' ∉ s ∧ isReserved s = true) ↔
      reservedWithExtension name = true := by
  rw [reservedWithExtension_iff]
  constructor
  · rintro ⟨s, rest, hclean, hs, hres⟩
    rcases cleanName_cases name.toList with hentry | htrim
    · have hdot : '.' ∈ "entry".toList := by
        rw [← hentry, hclean]
        simp
      exact absurd hdot (by decide)
    · rw [htrim] at hclean
      obtain ⟨c, hc, hkeep⟩ := exists_of_rdropWhile hclean (by decide)
      obtain ⟨more, hmore⟩ := List.rdropWhile_prefix isTrailing (l := name.toList.map cleanChar)
      rw [hclean, List.append_assoc, List.cons_append] at hmore
      obtain ⟨s₀, rest₀, hname, hs₀, hrest₀⟩ := map_cleanChar_stem hmore.symm
      obtain ⟨c₀, hc₀, rfl⟩ := List.mem_map.mp (hrest₀ ▸ List.mem_append_left more hc)
      refine ⟨s₀, rest₀, hname, ?_, ?_, c₀, hc₀, by rwa [isTrailing_cleanChar] at hkeep⟩
      · intro hdot
        exact hs (hs₀ ▸ List.mem_map.mpr ⟨'.', hdot, cleanChar_eq_dot.mpr rfl⟩)
      · rwa [← isReserved_map_cleanChar, hs₀]
  · rintro ⟨s, rest, hname, hs, hres, c, hc, hkeep⟩
    have hself : s.map cleanChar = s := by
      refine (List.map_congr_left fun d hd => ?_).trans (List.map_id s)
      rw [cleanChar, if_neg (by simp [(not_special_of_isReserved hres hd).1])]
      rfl
    have htail : ∃ d ∈ rest.map cleanChar, ¬isTrailing d = true :=
      ⟨cleanChar c, List.mem_map_of_mem hc, by rwa [isTrailing_cleanChar]⟩
    have htrim : (name.toList.map cleanChar).rdropWhile isTrailing =
        s ++ '.' :: (rest.map cleanChar).rdropWhile isTrailing := by
      have hdot : cleanChar '.' = '.' := cleanChar_eq_dot.mpr rfl
      have hsplit : s ++ '.' :: rest.map cleanChar = (s ++ ['.']) ++ rest.map cleanChar := by simp
      rw [hname, List.map_append, List.map_cons, hself, hdot, hsplit,
        rdropWhile_append_of_exists htail, List.append_assoc, List.singleton_append]
    refine ⟨s, (rest.map cleanChar).rdropWhile isTrailing, ?_, hs, hres⟩
    rw [← htrim, cleanName, if_neg (by simp [htrim])]

/-! ## What a replacement repairs -/

theorem legal_cleanName (name : List Char) : ∀ c ∈ cleanName name, isIllegal c = false := by
  rcases cleanName_cases name with hentry | htrim
  · rw [hentry]
    exact forall_mem_of_all (by decide)
  · rw [htrim]
    intro c hc
    obtain ⟨d, -, rfl⟩ := List.mem_map.mp
      ((List.rdropWhile_prefix isTrailing (l := name.map cleanChar)).subset hc)
    exact isIllegal_cleanChar d

/-- With a suffix in place only the stem can still be refused. -/
theorem needsMapping_append {t suffix : List Char} (hlegal : ∀ c ∈ t, isIllegal c = false)
    (hsuffix : ∀ c ∈ suffix, SuffixChar c) (htilde : '~' ∈ suffix)
    (hlen : utf16Len t + utf16Len suffix ≤ 255) :
    needsMapping (String.ofList (t ++ suffix)) = true ↔
      ∃ s rest, t = s ++ '.' :: rest ∧ '.' ∉ s ∧ isReserved s = true := by
  have hne : suffix ≠ [] := List.ne_nil_of_mem htilde
  have hlast : ((t ++ suffix).getLast?.any isTrailing) = false := by
    rw [List.getLast?_append_of_ne_nil _ hne, List.getLast?_eq_some_getLast hne]
    exact (hsuffix _ (List.getLast_mem hne)).kept
  have hill : (t ++ suffix).any isIllegal = false := by
    rw [List.any_eq_false]
    intro c hc
    rcases List.mem_append.mp hc with hc | hc
    · simp [hlegal c hc]
    · simp [(hsuffix c hc).legal]
  have hempty : (t ++ suffix).isEmpty = false := by simp [hne]
  have hfits : ¬utf16Len (t ++ suffix) > 255 := by
    rw [utf16Len_append]
    omega
  simp only [needsMapping, String.toList_ofList, hlast, hill, hempty, hfits, false_or,
    Bool.false_eq_true, decide_eq_true_eq]
  by_cases hdot : '.' ∈ t
  · obtain ⟨s, rest, rfl, hs⟩ := List.eq_append_cons_of_mem hdot
    rw [List.append_assoc, List.cons_append, takeWhile_stem hs]
    constructor
    · exact fun h => ⟨s, rest, rfl, hs, h⟩
    · rintro ⟨s', rest', heq, hs', h⟩
      have hstem := congrArg (List.takeWhile (· ≠ '.')) heq
      rw [takeWhile_stem hs, takeWhile_stem hs'] at hstem
      rwa [hstem]
  · have hnodot : '.' ∉ t ++ suffix := by
      intro hmem
      rcases List.mem_append.mp hmem with hmem | hmem
      · exact hdot hmem
      · have hkept := (hsuffix _ hmem).kept
        cases hkept
    rw [List.takeWhile_eq_self_iff.mpr (forall_ne_dot hnodot)]
    constructor
    · intro h
      exact absurd rfl (not_special_of_isReserved h (List.mem_append_right t htilde)).2.2
    · rintro ⟨s, rest, rfl, -, -⟩
      simp at hdot

/-- **A replacement is refused exactly when the name is a device name with an
extension.** -/
theorem needsMapping_mappedName_iff (name : String) (id attempt : UInt64) :
    needsMapping (mappedName name id attempt) = true ↔ reservedWithExtension name = true := by
  have hn := utf16Len_suffixOf_le id attempt
  have htilde : '~' ∈ suffixOf id attempt := by
    rw [suffixOf_def, List.append_assoc]
    exact List.mem_append_left _ (by decide)
  have hpre := shortName_initial name.toList (utf16Len (suffixOf id attempt))
  have hneeds := needsMapping_append
    (fun c hc => legal_cleanName name.toList c (hpre.subset hc)) suffixChar_suffixOf htilde
    (utf16Len_shortName (by omega) name.toList)
  rw [mappedName, ← shortName, hneeds, ← cleanName_stem_iff]
  constructor
  · rintro ⟨s, rest, hshort, hs, hres⟩
    obtain ⟨more, hmore⟩ := hpre
    rw [hshort, List.append_assoc, List.cons_append] at hmore
    exact ⟨s, rest ++ more, hmore.symm, hs, hres⟩
  · rintro ⟨s, rest, hclean, hs, hres⟩
    have hstem : s ++ ['.'] <+: cleanName name.toList := ⟨rest, by rw [hclean]; simp⟩
    have hlen := length_le_of_isReserved hres
    obtain ⟨more, hmore⟩ := prefix_shortName hn (by simp; omega) hstem
    exact ⟨s, more, by rw [← hmore]; simp, hs, hres⟩

/-- Every replacement fits. -/
theorem utf16Len_mappedName_le (name : String) (id attempt : UInt64) :
    utf16Len (mappedName name id attempt).toList ≤ 255 := by
  have hn := utf16Len_suffixOf_le id attempt
  rw [mappedName, ← shortName, String.toList_ofList, utf16Len_append]
  exact utf16Len_shortName (by omega) name.toList

theorem needsMapping_of_reservedWithExtension {name : String}
    (h : reservedWithExtension name = true) : needsMapping name = true := by
  rw [reservedWithExtension, decide_eq_true_eq] at h
  rw [needsMapping, decide_eq_true_eq]
  exact .inr (.inr (.inr (.inr h.1)))

theorem utf16Len_le_of_not_needsMapping {name : String} (h : needsMapping name = false) :
    utf16Len name.toList ≤ 255 := by
  simp only [needsMapping, decide_eq_false_iff_not, not_or] at h
  omega

end CipherFS.WindowsNames
