import Mathlib

/-!
# Paging through a list

A reader asks for one page after another, each with a buffer of its own. A page
is as much of the rest of the list as its buffer takes. If every buffer takes at
least the next element, the pages give the list and then an empty page.
-/

namespace CipherFS

variable {α B : Type*}

/-- What a buffer takes from the front of a list. -/
structure Pager (α B : Type*) where
  fill : B → List α → List α
  fits : B → α → Prop
  fill_start : ∀ b rest, fill b rest <+: rest
  fill_ne_nil : ∀ b a rest, fits b a → fill b (a :: rest) ≠ []

namespace Pager

variable (P : Pager α B)

/-- The pages of a reader that stops at an empty one. -/
def pages : List B → List α → List (List α)
  | [], _ => []
  | b :: bs, rest =>
    if P.fill b rest = [] then [[]]
    else P.fill b rest :: pages bs (rest.drop (P.fill b rest).length)

/-- Each buffer is large enough for the element it has to take first. -/
def LargeEnough : List B → List α → Prop
  | [], _ => True
  | b :: bs, rest => (∀ a ∈ rest.head?, P.fits b a) ∧
      LargeEnough bs (rest.drop (P.fill b rest).length)

variable {P}

/-- **The pages give the list, and the last one is empty.** -/
theorem pages_complete : ∀ {bs : List B} {rest : List α}, P.LargeEnough bs rest →
    rest.length < bs.length →
    (P.pages bs rest).flatten = rest ∧ (P.pages bs rest).getLast? = some []
  | [], rest, _, hlen => absurd hlen (Nat.not_lt_zero _)
  | b :: bs, rest, hlarge, hlen => by
      rw [pages]
      by_cases hempty : P.fill b rest = []
      · rw [if_pos hempty]
        cases rest with
        | nil => exact ⟨rfl, rfl⟩
        | cons a rest => exact absurd hempty (P.fill_ne_nil b a rest (hlarge.1 a rfl))
      · rw [if_neg hempty]
        have hpos := List.length_pos_of_ne_nil hempty
        have hle := (P.fill_start b rest).length_le
        have hshort : (rest.drop (P.fill b rest).length).length < bs.length := by
          rw [List.length_drop]
          rw [List.length_cons] at hlen
          omega
        obtain ⟨hflat, hlast⟩ := pages_complete hlarge.2 hshort
        constructor
        · rw [List.flatten_cons, hflat]
          exact List.prefix_iff_eq_append.mp (P.fill_start b rest)
        · rw [List.getLast?_cons, hlast]
          rfl

/-! ## A reader that does not stop -/

variable (P) in
/-- The pages of a reader that goes on for as long as it has buffers. -/
def allPages : List B → List α → List (List α)
  | [], _ => []
  | b :: bs, rest => P.fill b rest :: allPages bs (rest.drop (P.fill b rest).length)

@[simp] theorem length_allPages : ∀ (bs : List B) (rest : List α),
    (P.allPages bs rest).length = bs.length
  | [], _ => rfl
  | _ :: bs, _ => by rw [allPages, List.length_cons, length_allPages bs, List.length_cons]

theorem fill_append_drop (b : B) (rest : List α) :
    P.fill b rest ++ rest.drop (P.fill b rest).length = rest :=
  List.prefix_iff_eq_append.mp (P.fill_start b rest)

/-- Whatever the buffers take, the pages go through the list in its order. -/
theorem flatten_allPages_start : ∀ (bs : List B) (rest : List α),
    (P.allPages bs rest).flatten <+: rest
  | [], _ => List.nil_prefix
  | b :: bs, rest => by
      have htail := flatten_allPages_start bs (rest.drop (P.fill b rest).length)
      rw [allPages, List.flatten_cons]
      calc P.fill b rest ++ (P.allPages bs (rest.drop (P.fill b rest).length)).flatten
          <+: P.fill b rest ++ rest.drop (P.fill b rest).length :=
            (List.prefix_append_right_inj _).mpr htail
        _ = rest := fill_append_drop b rest

/-- As many pages as there are elements give the whole list. -/
theorem flatten_allPages : ∀ {bs : List B} {rest : List α}, P.LargeEnough bs rest →
    rest.length ≤ bs.length → (P.allPages bs rest).flatten = rest
  | [], rest, _, hlen => (List.eq_nil_of_length_eq_zero (Nat.le_zero.mp hlen)).symm
  | b :: bs, rest, hlarge, hlen => by
      have hshort : (rest.drop (P.fill b rest).length).length ≤ bs.length := by
        rw [List.length_drop]
        rw [List.length_cons] at hlen
        cases rest with
        | nil =>
            rw [List.length_nil, Nat.zero_sub]
            exact Nat.zero_le _
        | cons a rest =>
            have hpos := List.length_pos_of_ne_nil (P.fill_ne_nil b a rest (hlarge.1 a rfl))
            rw [List.length_cons] at hlen ⊢
            omega
      rw [allPages, List.flatten_cons, flatten_allPages hlarge.2 hshort]
      exact fill_append_drop b rest

/-- A page is empty exactly when the pages before it have given everything. -/
theorem page_eq_nil_iff : ∀ {bs : List B} {rest : List α}, P.LargeEnough bs rest →
    ∀ {before page after}, P.allPages bs rest = before ++ page :: after →
      (page = [] ↔ before.flatten = rest)
  | [], _, _, before, page, after, h => by
      rw [allPages] at h
      exact absurd h (by simp)
  | b :: bs, rest, hlarge, before, page, after, h => by
      rw [allPages] at h
      cases before with
      | nil =>
          obtain ⟨rfl, -⟩ := List.cons.inj h
          rw [List.flatten_nil]
          constructor
          · intro hempty
            cases rest with
            | nil => rfl
            | cons a rest => exact absurd hempty (P.fill_ne_nil b a rest (hlarge.1 a rfl))
          · rintro rfl
            exact List.prefix_nil.mp (P.fill_start b [])
      | cons first before =>
          obtain ⟨rfl, htail⟩ := List.cons.inj h
          rw [page_eq_nil_iff hlarge.2 htail, List.flatten_cons]
          constructor
          · intro hrest
            rw [hrest, fill_append_drop]
          · intro hall
            have hsplit := fill_append_drop (P := P) b rest
            exact List.append_cancel_left (hall.trans hsplit.symm)

end Pager

end CipherFS
