import CipherFS.Core.WindowsNames.Directory

/-!
# The ordinal comparison

`OrdinalName` compares the upper case of a name by `CompareStringOrdinal`. What
these do to letters beyond ASCII is left open. It does not matter for the suffixes
of `mapped_name`, which tell the candidates of one name apart whatever they are
appended to.
-/

namespace CipherFS.WindowsNames

/-- `encode_utf16` of one character. -/
def encodeUtf16 (c : Char) : List UInt16 :=
  if c.val ≤ 0xFFFF then [UInt16.ofNat c.toNat]
  else [UInt16.ofNat (0xD800 + (c.toNat - 0x10000) / 0x400),
    UInt16.ofNat (0xDC00 + (c.toNat - 0x10000) % 0x400)]

/-- The tables behind `OrdinalName`: `str::to_uppercase` on one character, and the
upper case of one unit as `CompareStringOrdinal` takes it. -/
structure CaseTables where
  upper : Char → List Char
  fold : UInt16 → UInt16
  upper_ascii : ∀ c : Char, c.toNat < 128 → upper c = [c.toUpper]
  fold_ascii : ∀ c : Char, c.toNat < 128 →
    fold (UInt16.ofNat c.toNat) = UInt16.ofNat c.toUpper.toNat

namespace CaseTables

variable (T : CaseTables)

/-- `windows_uppercase`. -/
def windowsUppercase (name : List Char) : List UInt16 := (name.flatMap T.upper).flatMap encodeUtf16

/-- The units by which `compare_wide` finds two names equal or not. -/
def ordinal (name : String) : List UInt16 := (T.windowsUppercase name.toList).map T.fold

/-- The unit of a character in ASCII. -/
def asciiUnit (c : Char) : UInt16 := UInt16.ofNat c.toUpper.toNat

/-- The key of a character. -/
def charKey (c : Char) : List UInt16 := ((T.upper c).flatMap encodeUtf16).map T.fold

theorem ordinal_ofList (cs : List Char) : T.ordinal (String.ofList cs) = cs.flatMap T.charKey := by
  rw [ordinal, windowsUppercase, String.toList_ofList, List.flatMap_assoc, List.map_flatMap]
  rfl

theorem toUpper_toUpper (c : Char) : c.toUpper.toUpper = c.toUpper := by
  by_cases h : 'a'.val ≤ c.val ∧ c.val ≤ 'z'.val
  · have hmem : ∀ n < 123, 97 ≤ n → (Char.ofNat n).toUpper.toUpper = (Char.ofNat n).toUpper := by
      decide
    have hchar : c = Char.ofNat c.toNat := (Char.ofNat_toNat c).symm
    rw [hchar]
    have h1 := UInt32.le_iff_toNat_le.mp h.1
    have h2 := UInt32.le_iff_toNat_le.mp h.2
    exact hmem c.toNat (Nat.lt_succ_of_le h2) h1
  · rw [toUpper_eq_self h]
    exact toUpper_eq_self h

theorem toNat_toUpper_lt {c : Char} (h : c.toNat < 128) : c.toUpper.toNat < 128 := by
  have hall : ∀ n < 128, (Char.ofNat n).toUpper.toNat < 128 := by decide
  rw [← Char.ofNat_toNat c]
  exact hall _ h

/-- A character in ASCII has one unit in the key. -/
theorem charKey_ascii {c : Char} (h : c.toNat < 128) : T.charKey c = [asciiUnit c] := by
  have hupper := toNat_toUpper_lt h
  have hunit : encodeUtf16 c.toUpper = [UInt16.ofNat c.toUpper.toNat] := by
    rw [encodeUtf16, if_pos]
    rw [UInt32.le_iff_toNat_le]
    exact (show c.toUpper.toNat ≤ 0xFFFF by omega)
  rw [charKey, T.upper_ascii c h, List.flatMap_singleton, hunit, List.map_singleton,
    T.fold_ascii _ hupper, toUpper_toUpper]
  rfl

theorem flatMap_charKey_ascii {cs : List Char} (h : ∀ c ∈ cs, c.toNat < 128) :
    cs.flatMap T.charKey = cs.map asciiUnit := by
  induction cs with
  | nil => rfl
  | cons c rest ih =>
      rw [List.forall_mem_cons] at h
      rw [List.flatMap_cons, T.charKey_ascii h.1, ih h.2, List.map_cons, List.singleton_append]

end CaseTables

/-! ## The last other element -/

section LastOther

variable {α : Type} {p : α → Bool} {x y ds es : List α} {m n : α}

/-- A list says where its last element outside `p` is. -/
theorem append_cons_inj_of_all (h : x ++ m :: ds = y ++ n :: es) (hm : p m = false)
    (hn : p n = false) (hds : ∀ d ∈ ds, p d = true) (hes : ∀ e ∈ es, p e = true) :
    x = y ∧ m = n ∧ ds = es := by
  rcases List.append_eq_append_iff.mp h with ⟨t, hy, ht⟩ | ⟨t, hx, ht⟩
  · cases t with
    | nil =>
        rw [List.append_nil] at hy
        obtain ⟨hmn, hde⟩ := List.cons.inj ht
        exact ⟨hy.symm, hmn, hde⟩
    | cons c t =>
        -- the other list has an element outside `p` behind `m`
        obtain ⟨-, rfl⟩ := List.cons.inj ht
        rw [hds n (List.mem_append_right _ List.mem_cons_self)] at hn
        cases hn
  · cases t with
    | nil =>
        rw [List.append_nil] at hx
        obtain ⟨hnm, hed⟩ := List.cons.inj ht
        exact ⟨hx, hnm.symm, hed.symm⟩
    | cons c t =>
        obtain ⟨-, rfl⟩ := List.cons.inj ht
        rw [hes m (List.mem_append_right _ List.mem_cons_self)] at hm
        cases hm

theorem all_or_exists_last (p : α → Bool) (l : List α) : (∀ a ∈ l, p a = true) ∨
    ∃ front a back, l = front ++ a :: back ∧ p a = false ∧ ∀ b ∈ back, p b = true := by
  induction l with
  | nil => exact .inl nofun
  | cons c rest ih =>
      rcases ih with hall | ⟨front, a, back, rfl, ha, hback⟩
      · cases hc : p c with
        | true => exact .inl (List.forall_mem_cons.mpr ⟨hc, hall⟩)
        | false => exact .inr ⟨[], c, rest, rfl, hc, hall⟩
      · exact .inr ⟨c :: front, a, back, rfl, ha, hback⟩

end LastOther

/-! ## The candidates of one name -/

open CaseTables

/-- The units of decimal digits. -/
def isDigitUnit (u : UInt16) : Bool := 48 ≤ u ∧ u ≤ 57

/-- The units of the id. -/
def idUnits (id : UInt64) : List UInt16 := (hex16 id.toNat).map asciiUnit

/-- The units of the attempt. -/
def attemptUnits (attempt : UInt64) : List UInt16 :=
  (Nat.toDigits 10 attempt.toNat).map asciiUnit

/-- The unit of `-`. -/
def dash : UInt16 := asciiUnit '-'

theorem mem_idUnits {id : UInt64} {u : UInt16} (h : u ∈ idUnits id) :
    u ≠ dash ∧ u ≠ asciiUnit 's' := by
  have hall : ∀ d < 16, asciiUnit d.digitChar ≠ dash ∧ asciiUnit d.digitChar ≠ asciiUnit 's' := by
    decide
  obtain ⟨c, hc, rfl⟩ := List.mem_map.mp h
  obtain ⟨i, -, rfl⟩ := List.mem_map.mp hc
  exact hall _ (Nat.mod_lt _ (by decide))

theorem idUnits_ne_nil (id : UInt64) : idUnits id ≠ [] := by
  simp [idUnits, hex16, List.range_succ]

theorem mem_attemptUnits {attempt : UInt64} {u : UInt16} (h : u ∈ attemptUnits attempt) :
    isDigitUnit u = true := by
  have hall : ∀ c ∈ "0123456789".toList, isDigitUnit (asciiUnit c) = true :=
    forall_mem_of_all (by decide)
  obtain ⟨c, hc, rfl⟩ := List.mem_map.mp h
  exact hall c (mem_of_isDigit (Nat.isDigit_of_mem_toDigits (by decide) (by decide) hc))

/-- The units of an attempt are its digits. -/
theorem map_attemptUnits (attempt : UInt64) :
    (attemptUnits attempt).map (fun u => Char.ofNat u.toNat) = Nat.toDigits 10 attempt.toNat := by
  have hback : ∀ c ∈ "0123456789".toList, Char.ofNat (asciiUnit c).toNat = c :=
    forall_mem_of_all (by decide)
  rw [attemptUnits, List.map_map]
  refine (List.map_congr_left fun c hc => ?_).trans (List.map_id _)
  exact hback c (mem_of_isDigit (Nat.isDigit_of_mem_toDigits (by decide) (by decide) hc))

theorem attemptUnits_inj {a b : UInt64} (h : attemptUnits a = attemptUnits b) : a = b := by
  have hdigits : Nat.toDigits 10 a.toNat = Nat.toDigits 10 b.toNat := by
    rw [← map_attemptUnits, h, map_attemptUnits]
  have hvalue : Nat.ofDigitChars 10 (Nat.toDigits 10 a.toNat) 0 =
      Nat.ofDigitChars 10 (Nat.toDigits 10 b.toNat) 0 := by rw [hdigits]
  rw [Nat.ofDigitChars_toDigits (by decide) (by decide),
    Nat.ofDigitChars_toDigits (by decide) (by decide)] at hvalue
  exact UInt64.toNat_inj.mp hvalue

theorem suffix_ascii {id attempt : UInt64} : ∀ c ∈ suffixOf id attempt, c.toNat < 128 := by
  have hhex : ∀ d < 16, d.digitChar.toNat < 128 := by decide
  have hdigits : ∀ c ∈ "0123456789".toList, c.toNat < 128 := forall_mem_of_all (by decide)
  have hmark : ∀ c ∈ "~cfs-".toList, c.toNat < 128 := forall_mem_of_all (by decide)
  intro c hc
  simp only [suffixOf_def, List.mem_append] at hc
  rcases hc with (hc | hc) | hc
  · exact hmark c hc
  · obtain ⟨i, -, rfl⟩ := List.mem_map.mp hc
    exact hhex _ (Nat.mod_lt _ (by decide))
  · split at hc
    · cases hc
    · rcases List.mem_cons.mp hc with rfl | hc
      · decide
      · exact hdigits c (mem_of_isDigit (Nat.isDigit_of_mem_toDigits (by decide) (by decide) hc))

variable (T : CaseTables)

/-- The key of a candidate ends with the units of its suffix. -/
theorem ordinal_mappedName (name : String) (id attempt : UInt64) : ∃ front,
    T.ordinal (mappedName name id attempt) = front ++ (suffixOf id attempt).map asciiUnit := by
  rw [mappedName, T.ordinal_ofList, List.flatMap_append, T.flatMap_charKey_ascii suffix_ascii]
  exact ⟨_, rfl⟩

/-- The key of the first candidate ends with the id behind a dash. -/
theorem ordinal_first (name : String) (id : UInt64) : ∃ front,
    T.ordinal (mappedName name id 0) =
      (front ++ "~cfs".toList.map asciiUnit) ++ dash :: idUnits id := by
  obtain ⟨front, hkey⟩ := ordinal_mappedName T name id 0
  refine ⟨front, ?_⟩
  rw [hkey, suffixOf_def, if_pos rfl, List.append_nil, List.map_append, List.append_assoc]
  rfl

/-- The key of a later candidate ends with the attempt behind the id. -/
theorem ordinal_later (name : String) (id : UInt64) {attempt : UInt64} (h : attempt ≠ 0) :
    ∃ front, T.ordinal (mappedName name id attempt) =
      (front ++ idUnits id) ++ dash :: attemptUnits attempt := by
  obtain ⟨front, hkey⟩ := ordinal_mappedName T name id attempt
  refine ⟨front ++ "~cfs-".toList.map asciiUnit, ?_⟩
  rw [hkey, suffixOf_def, if_neg h, List.map_append, List.map_append]
  simp only [List.append_assoc]
  rfl

/-- The first candidate is not one of the later ones. -/
theorem ordinal_first_ne_later {name : String} {id attempt : UInt64} (h : attempt ≠ 0) :
    T.ordinal (mappedName name id 0) ≠ T.ordinal (mappedName name id attempt) := by
  intro heq
  obtain ⟨front, hfirst⟩ := ordinal_first T name id
  obtain ⟨front', hlater⟩ := ordinal_later T name id h
  rw [hfirst, hlater] at heq
  have hdash : isDigitUnit dash = false := by decide
  have hattempt : ∀ u ∈ attemptUnits attempt, isDigitUnit u = true := fun _ => mem_attemptUnits
  rcases all_or_exists_last isDigitUnit (idUnits id) with hall | ⟨pre, u, back, hid, hu, hback⟩
  · -- all of the id are digits: before the dash stand the mark and the id
    obtain ⟨hbefore, -, -⟩ := append_cons_inj_of_all heq hdash hdash hall hattempt
    have hlast := congrArg List.getLast? hbefore
    rw [List.getLast?_append_of_ne_nil _ (idUnits_ne_nil id)] at hlast
    have hs : (front ++ "~cfs".toList.map asciiUnit).getLast? = some (asciiUnit 's') := by
      rw [List.getLast?_append_of_ne_nil _ (by decide)]
      rfl
    rw [hs] at hlast
    exact (mem_idUnits (List.mem_of_getLast? hlast.symm)).2 rfl
  · -- the last letter of the id stands where the other candidate has its dash
    rw [hid, ← List.cons_append, ← List.append_assoc] at heq
    obtain ⟨-, hmark, -⟩ := append_cons_inj_of_all heq hu hdash hback hattempt
    have hmem : u ∈ idUnits id := by
      rw [hid]
      exact List.mem_append_right _ List.mem_cons_self
    exact (mem_idUnits hmem).1 hmark

/-- **The comparison tells the candidates of different attempts apart.** -/
theorem separatesAttempts : SeparatesAttempts T.ordinal := by
  intro name id a b heq
  by_cases ha : a = 0
  · by_cases hb : b = 0
    · rw [ha, hb]
    · rw [ha] at heq
      exact absurd heq (ordinal_first_ne_later T hb)
  · by_cases hb : b = 0
    · rw [hb] at heq
      exact absurd heq.symm (ordinal_first_ne_later T ha)
    · obtain ⟨front, hkey⟩ := ordinal_later T name id ha
      obtain ⟨front', hkey'⟩ := ordinal_later T name id hb
      rw [hkey, hkey'] at heq
      have hdash : isDigitUnit dash = false := by decide
      obtain ⟨-, -, hunits⟩ := append_cons_inj_of_all heq hdash hdash (fun _ => mem_attemptUnits)
        fun _ => mem_attemptUnits
      exact attemptUnits_inj hunits

/-- The tables on text in ASCII. -/
def CaseTables.ascii : CaseTables where
  upper c := [c.toUpper]
  fold u := if 97 ≤ u ∧ u ≤ 122 then u - 32 else u
  upper_ascii _ _ := rfl
  fold_ascii := by
    intro c hc
    have hall : ∀ n < 128, (if 97 ≤ UInt16.ofNat (Char.ofNat n).toNat ∧
        UInt16.ofNat (Char.ofNat n).toNat ≤ 122 then UInt16.ofNat (Char.ofNat n).toNat - 32
      else UInt16.ofNat (Char.ofNat n).toNat) = UInt16.ofNat (Char.ofNat n).toUpper.toNat := by
      decide
    rw [← Char.ofNat_toNat c]
    exact hall _ hc

end CipherFS.WindowsNames
